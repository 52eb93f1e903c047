import YeetzS3.Store

/-!
# Keys on the wire, apart

`pathFrom` forgets empty segments and escapes the others, and two keys go to one path only if they have the
same segments on the wire. Segments of ASCII characters are escaped injectively: `unescape` reads them back.
-/

namespace YeetzS3

/-! ### Segments -/

theorem upperHexDigit_ne_slash {n : ℕ} (h : n < 16) : upperHexDigit n ≠ '/' := by
  interval_cases n <;> decide

theorem slash_not_mem_percentByte (b : UInt8) : '/' ∉ percentByte b := by
  have hb := b.toNat_lt
  have hhi : upperHexDigit (b.toNat / 16) ≠ '/' := upperHexDigit_ne_slash (by omega)
  have hlo : upperHexDigit (b.toNat % 16) ≠ '/' := upperHexDigit_ne_slash (by omega)
  simp [percentByte, Ne.symm hhi, Ne.symm hlo]

theorem slash_not_mem_encodeSegment (s : Str) : '/' ∉ encodeSegment s := by
  unfold encodeSegment
  split
  · decide
  split
  · decide
  intro h
  obtain ⟨c, -, hc⟩ := List.mem_flatMap.1 h
  split at hc
  · obtain ⟨b, -, hb⟩ := List.mem_flatMap.1 hc
    exact slash_not_mem_percentByte b hb
  · next hn =>
    obtain rfl := List.mem_singleton.1 hc
    exact hn (by decide)

theorem encodeSegment_ne_nil {s : Str} (h : s ≠ []) : encodeSegment s ≠ [] := by
  unfold encodeSegment
  split
  · decide
  split
  · decide
  obtain ⟨c, cs, rfl⟩ := List.exists_cons_of_ne_nil h
  rw [List.flatMap_cons]
  refine List.append_ne_nil_of_left_ne_nil ?_ _
  split
  · have hu : String.utf8EncodeChar c ≠ [] := by
      unfold String.utf8EncodeChar
      dsimp only
      split
      · simp
      split
      · simp
      split <;> simp
    obtain ⟨b, bs, hb⟩ := List.exists_cons_of_ne_nil hu
    rw [hb, List.flatMap_cons, percentByte]
    simp
  · simp

theorem wireSegments_append (a b : Str) : wireSegments (a ++ '/' :: b) = wireSegments a ++ wireSegments b := by
  simp [wireSegments, List.splitOn_append_cons_self]

/-- The segments on the wire are not empty and hold no separator. -/
theorem mem_wireSegments {key s : Str} (h : s ∈ wireSegments key) : s ≠ [] ∧ '/' ∉ s := by
  obtain ⟨s, hs, rfl⟩ := List.mem_map.1 h
  have hne : s ≠ [] := by simpa using (List.mem_filter.1 hs).2
  exact ⟨encodeSegment_ne_nil hne, slash_not_mem_encodeSegment s⟩

/-- A key of one segment. -/
theorem wireSegments_single {s : Str} (hn : s ≠ []) (hs : '/' ∉ s) : wireSegments s = [encodeSegment s] := by
  rw [wireSegments, List.splitOn_eq_singleton hs, List.filter_cons_of_pos (by simpa using hn), List.filter_nil,
    List.map_singleton]

theorem pathFrom_eq_nil {key : Str} (h : pathFrom key = []) : wireSegments key = [] := by
  cases hw : wireSegments key with
  | nil => rfl
  | cons s ss =>
    rw [pathFrom, hw] at h
    have hs : s ≠ [] := (mem_wireSegments (hw ▸ List.mem_cons_self)).1
    cases ss with
    | nil =>
      rw [List.intercalate_singleton] at h
      exact absurd h hs
    | cons s' ss =>
      rw [List.intercalate_cons_cons] at h
      simp at h

theorem splitOn_pathFrom {key : Str} (h : wireSegments key ≠ []) : (pathFrom key).splitOn '/' = wireSegments key :=
  List.splitOn_intercalate '/' (fun _ hs => (mem_wireSegments hs).2) h

theorem intercalate_append {xs ys : List Str} (hx : xs ≠ []) (hy : ys ≠ []) :
    ['/'].intercalate (xs ++ ys) = ['/'].intercalate xs ++ '/' :: ['/'].intercalate ys := by
  induction xs with
  | nil => exact absurd rfl hx
  | cons x xs ih =>
    cases xs with
    | nil => rw [List.singleton_append, List.intercalate_cons_of_ne_nil hy, List.intercalate_singleton,
        List.append_assoc, List.singleton_append]
    | cons x' xs =>
      have hl : ['/'].intercalate (x :: x' :: xs) = x ++ ['/'] ++ ['/'].intercalate (x' :: xs) :=
        List.intercalate_cons_cons
      have hr : ['/'].intercalate (x :: (x' :: xs ++ ys)) = x ++ ['/'] ++ ['/'].intercalate (x' :: xs ++ ys) :=
        List.intercalate_cons_cons
      rw [List.cons_append, hr, ih (List.cons_ne_nil _ _), hl]
      simp only [List.append_assoc]

theorem pathFrom_append {a b : Str} (ha : wireSegments a ≠ []) (hb : wireSegments b ≠ []) :
    pathFrom (a ++ '/' :: b) = pathFrom a ++ '/' :: pathFrom b := by
  rw [pathFrom, wireSegments_append, intercalate_append ha hb, pathFrom, pathFrom]

/-- Keys go to one path if and only if they have the same segments there. -/
theorem pathFrom_inj {a b : Str} : pathFrom a = pathFrom b ↔ wireSegments a = wireSegments b := by
  constructor
  · intro h
    by_cases ha : wireSegments a = []
    · rw [ha, @pathFrom_eq_nil b (by rw [← h, pathFrom, ha]; rfl)]
    by_cases hb : wireSegments b = []
    · rw [hb, @pathFrom_eq_nil a (by rw [h, pathFrom, hb]; rfl)]
    rw [← splitOn_pathFrom ha, h, splitOn_pathFrom hb]
  · intro h
    rw [pathFrom, pathFrom, h]

/-! ### Reading segments back -/

/-- The value of an upper-case hex digit. -/
def upperHexValue (c : Char) : ℕ := if c.toNat < 58 then c.toNat - 48 else c.toNat - 55

/-- A segment of ASCII characters, read back. -/
def unescape : Str → Str
  | [] => []
  | c :: hi :: lo :: rest =>
    if c = '%' then Char.ofNat (16 * upperHexValue hi + upperHexValue lo) :: unescape rest
    else c :: unescape (hi :: lo :: rest)
  | c :: rest => c :: unescape rest

theorem unescape_cons {c : Char} (h : c ≠ '%') (rest : Str) : unescape (c :: rest) = c :: unescape rest := by
  match rest with
  | [] => rfl
  | [_] => rfl
  | _ :: _ :: _ => rw [unescape, if_neg h]

theorem unescape_percentByte (b : UInt8) (rest : Str) :
    unescape (percentByte b ++ rest) = Char.ofNat b.toNat :: unescape rest := by
  have hv : ∀ n < 16, upperHexValue (upperHexDigit n) = n := by decide
  have hb := b.toNat_lt
  have hcons : percentByte b ++ rest =
      '%' :: upperHexDigit (b.toNat / 16) :: upperHexDigit (b.toNat % 16) :: rest := rfl
  rw [hcons, unescape, if_pos rfl, hv _ (by omega), hv _ (by omega)]
  congr 2
  omega

theorem unescape_escaped {s : Str} (h : ∀ c ∈ s, c.toNat < 128) :
    unescape (s.flatMap fun c => if needsEscape c then (String.utf8EncodeChar c).flatMap percentByte else [c]) = s := by
  induction s with
  | nil => rfl
  | cons c cs ih =>
    have hc := h c List.mem_cons_self
    have ih := ih fun d hd => h d (List.mem_cons_of_mem _ hd)
    rw [List.flatMap_cons]
    split
    · have hu : String.utf8EncodeChar c = [c.val.toUInt8] := by
        unfold String.utf8EncodeChar
        exact if_pos (Nat.le_of_lt_succ hc)
      have hb : c.val.toUInt8.toNat = c.toNat := Nat.mod_eq_of_lt (hc.trans (by decide))
      rw [hu, List.flatMap_singleton, unescape_percentByte, hb, Char.ofNat_toNat, ih]
    · next hn =>
      have hp : c ≠ '%' := by
        rintro rfl
        exact hn (by decide)
      rw [List.singleton_append, unescape_cons hp, ih]

/-- ASCII segments read back. -/
theorem unescape_encodeSegment {s : Str} (h : ∀ c ∈ s, c.toNat < 128) : unescape (encodeSegment s) = s := by
  unfold encodeSegment
  split
  · next hs =>
    rw [hs]
    decide
  split
  · next hs =>
    rw [hs]
    decide
  exact unescape_escaped h

end YeetzS3
