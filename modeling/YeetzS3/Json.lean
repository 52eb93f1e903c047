import YeetzS3.Text

/-!
# JSON as serde writes it

Writers for the JSON of structures with strings, numbers, optional objects and lists of objects, in the layout
`serde_json::to_vec` gives them, and readers for that layout. A `Piece` is a writer with a reader that finds its end
whatever follows; pieces are put together with literal text, as pairs, options and lists.
-/

namespace YeetzS3.Json

/-! ### Text in UTF-8 -/

/-- The bytes of a string. -/
def utf8 (s : Str) : Bytes := s.flatMap String.utf8EncodeChar

/-- The string of some bytes, if they are one. Bytes that are characters themselves are read as such. -/
def ofUtf8 (bs : Bytes) : Option Str :=
  let ascii := bs.map fun b => Char.ofNat b.toNat
  if utf8 ascii = bs then some ascii else bs.toByteArray.utf8Decode?.map Array.toList

theorem decode_utf8 (s : Str) : (utf8 s).toByteArray.utf8Decode? = some s.toArray := List.utf8Decode?_utf8Encode

theorem utf8_injective : Function.Injective utf8 := fun a b h => by
  have ha := decode_utf8 a
  rw [h, decode_utf8 b] at ha
  simpa using ha.symm

@[simp] theorem ofUtf8_utf8 (s : Str) : ofUtf8 (utf8 s) = some s := by
  unfold ofUtf8
  dsimp only
  split
  · next h => rw [utf8_injective h]
  · rw [decode_utf8]
    rfl

/-- A string that was read is of exactly its bytes. -/
theorem utf8_of_ofUtf8 {bs : Bytes} {s : Str} (h : ofUtf8 bs = some s) : utf8 s = bs := by
  unfold ofUtf8 at h
  dsimp only at h
  split at h
  · next ha =>
    cases h
    exact ha
  · obtain ⟨cs, hcs, rfl⟩ := Option.map_eq_some_iff.1 h
    have he : cs.toList.utf8Encode = bs.toByteArray := by
      have := @ByteArray.utf8Encode_get_utf8Decode? bs.toByteArray (by rw [hcs]; rfl)
      simpa only [hcs, Option.get_some] using this
    have hb : (utf8 cs.toList).toByteArray = bs.toByteArray := he
    have := congrArg (·.data.toList) hb
    simpa using this

/-! ### Strings -/

/-- The escape of a control character, after the backslash. -/
def escapeControl (n : ℕ) : Str :=
  if n = 8 then ['b'] else if n = 9 then ['t'] else if n = 10 then ['n'] else if n = 12 then ['f']
  else if n = 13 then ['r'] else ['u', '0', '0', hexDigit (n / 16), hexDigit (n % 16)]

/-- One character inside a string. -/
def escapeChar (c : Char) : Str :=
  if c = '"' ∨ c = '\\' then ['\\', c] else if c.toNat < 32 then '\\' :: escapeControl c.toNat else [c]

/-- The value of a lower-case hex digit. -/
def hexDigitValue (c : Char) : ℕ := if c.toNat < 58 then c.toNat - 48 else c.toNat - 87

/-- The characters of a string up to its closing quote, and what follows it. -/
def readChars : Str → Option (Str × Str)
  | [] => none
  | '"' :: rest => some ([], rest)
  | '\\' :: 'u' :: '0' :: '0' :: hi :: lo :: rest =>
    (readChars rest).map fun r => (Char.ofNat (16 * hexDigitValue hi + hexDigitValue lo) :: r.1, r.2)
  | '\\' :: 'b' :: rest => (readChars rest).map fun r => (Char.ofNat 8 :: r.1, r.2)
  | '\\' :: 't' :: rest => (readChars rest).map fun r => (Char.ofNat 9 :: r.1, r.2)
  | '\\' :: 'n' :: rest => (readChars rest).map fun r => (Char.ofNat 10 :: r.1, r.2)
  | '\\' :: 'f' :: rest => (readChars rest).map fun r => (Char.ofNat 12 :: r.1, r.2)
  | '\\' :: 'r' :: rest => (readChars rest).map fun r => (Char.ofNat 13 :: r.1, r.2)
  | '\\' :: c :: rest => (readChars rest).map fun r => (c :: r.1, r.2)
  | c :: rest => (readChars rest).map fun r => (c :: r.1, r.2)

theorem readChars_plain {c : Char} (h₁ : c ≠ '"') (h₂ : c ≠ '\\') (rest : Str) :
    readChars (c :: rest) = (readChars rest).map fun r => (c :: r.1, r.2) := by
  conv_lhs => unfold readChars
  split <;> first | contradiction | simp_all

theorem readChars_escapeChar (c : Char) (rest : Str) :
    readChars (escapeChar c ++ rest) = (readChars rest).map fun r => (c :: r.1, r.2) := by
  unfold escapeChar
  split
  · next h =>
    rcases h with rfl | rfl <;> rfl
  next h =>
  rw [not_or] at h
  split
  · next hn =>
    have hcontrol : ∀ n < 32, readChars ('\\' :: escapeControl n ++ rest) =
        (readChars rest).map fun r => (Char.ofNat n :: r.1, r.2) := by
      intro n hn
      interval_cases n <;> rfl
    have := hcontrol c.toNat hn
    rwa [Char.ofNat_toNat] at this
  · exact readChars_plain h.1 h.2 rest

theorem readChars_escape (s rest : Str) : readChars (s.flatMap escapeChar ++ '"' :: rest) = some (s, rest) := by
  induction s with
  | nil => rfl
  | cons c cs ih => rw [List.flatMap_cons, List.append_assoc, readChars_escapeChar, ih, Option.map_some]

/-! ### Numbers -/

/-- The digits a text begins with, least recent first, and what follows them. -/
def readDigits : Str → ℕ → ℕ × Str
  | [], n => (n, [])
  | c :: rest, n => if c.isDigit then readDigits rest (10 * n + (c.toNat - 48)) else (n, c :: rest)

theorem readDigits_digits {ds : Str} (h : ∀ c ∈ ds, c.isDigit = true) {c : Char} (hc : c.isDigit = false) (rest : Str)
    (n : ℕ) : readDigits (ds ++ c :: rest) n = (ds.foldl (fun n c => 10 * n + (c.toNat - 48)) n, c :: rest) := by
  induction ds generalizing n with
  | nil => simp [readDigits, hc]
  | cons d ds ih =>
    rw [List.cons_append, readDigits, if_pos (h d List.mem_cons_self), ih fun e he => h e (List.mem_cons_of_mem _ he)]
    rfl

/-- A number in decimal. -/
def writeNat (n : ℕ) : Str := Nat.toDigits 10 n

theorem readDigits_writeNat (n : ℕ) {c : Char} (hc : c.isDigit = false) (rest : Str) :
    readDigits (writeNat n ++ c :: rest) 0 = (n, c :: rest) := by
  have hd : ∀ c ∈ writeNat n, c.isDigit = true := fun _ h => Nat.isDigit_of_mem_toDigits (by decide) (by decide) h
  rw [readDigits_digits hd hc]
  exact congrArg (·, c :: rest) Nat.ofDigitChars_ten_toDigits

/-! ### Pieces -/

/-- A writer, and a reader that finds its end whatever follows. -/
structure Piece (α : Type) where
  write : α → Str
  read : Str → Option (α × Str)
  read_write : ∀ a rest, read (write a ++ rest) = some (a, rest)

namespace Piece

variable {α β : Type}

/-- Drop a literal text. -/
def expect : Str → Str → Option Str
  | [], rest => some rest
  | _ :: _, [] => none
  | c :: cs, d :: rest => if c = d then expect cs rest else none

@[simp] theorem expect_append (s rest : Str) : expect s (s ++ rest) = some rest := by
  induction s with
  | nil => rfl
  | cons c cs ih =>
    rw [List.cons_append, expect, if_pos rfl]
    exact ih

/-- A piece behind a literal text. -/
def after (pre : Str) (p : Piece α) : Piece α where
  write a := pre ++ p.write a
  read s := (expect pre s).bind p.read
  read_write a rest := by rw [List.append_assoc, expect_append, Option.bind_some, p.read_write]

/-- A piece before a literal text. -/
def before (p : Piece α) (post : Str) : Piece α where
  write a := p.write a ++ post
  read s := (p.read s).bind fun r => (expect post r.2).map fun rest => (r.1, rest)
  read_write a rest := by
    rw [List.append_assoc, p.read_write, Option.bind_some]
    dsimp only
    rw [expect_append, Option.map_some]

/-- Two pieces, one after the other. -/
def pair (p : Piece α) (q : Piece β) : Piece (α × β) where
  write a := p.write a.1 ++ q.write a.2
  read s := (p.read s).bind fun r => (q.read r.2).map fun r' => ((r.1, r'.1), r'.2)
  read_write a rest := by
    rw [List.append_assoc, p.read_write, Option.bind_some]
    dsimp only
    rw [q.read_write, Option.map_some]

/-- A piece for values that stand for others. -/
def map (p : Piece α) (f : β → α) (g : α → Option β) (h : ∀ b, g (f b) = some b) : Piece β where
  write b := p.write (f b)
  read s := (p.read s).bind fun r => (g r.1).map fun b => (b, r.2)
  read_write b rest := by
    rw [p.read_write, Option.bind_some]
    dsimp only
    rw [h, Option.map_some]

/-- A piece for the values of a type with the same content. -/
def iso (p : Piece α) (f : β → α) (g : α → β) (h : ∀ b, g (f b) = b) : Piece β :=
  p.map f (some ∘ g) fun b => congrArg some (h b)

/-- Two texts that go on differently are told apart. -/
theorem pair_read_none (p : Piece α) {γ : Type} (q : Piece β) (r : Piece γ) {pre pre' : Str}
    (h : ∀ rest, expect pre' (pre ++ rest) = none) (a : α × β) :
    (p.pair (r.after pre')).read ((p.pair (q.after pre)).write a) = none := by
  show (p.read (p.write a.1 ++ (pre ++ q.write a.2))).bind _ = none
  rw [p.read_write, Option.bind_some]
  show ((expect pre' (pre ++ q.write a.2)).bind r.read).map _ = none
  rw [h]
  rfl

/-- A string. -/
def str : Piece Str where
  write s := '"' :: (s.flatMap escapeChar ++ ['"'])
  read
    | '"' :: rest => readChars rest
    | _ => none
  read_write s rest := by
    rw [List.cons_append, List.append_assoc]
    exact readChars_escape s rest

/-- A number, and the character that ends it. -/
def num (post : Char) (h : post.isDigit = false) : Piece ℕ where
  write n := writeNat n ++ [post]
  read s := match readDigits s 0 with
    | (n, c :: rest) => if c = post then some (n, rest) else none
    | (_, []) => none
  read_write n rest := by
    rw [List.append_assoc, List.singleton_append, readDigits_writeNat n h]
    exact if_pos rfl

/-- An object or `null`. -/
def opt (p : Piece α) : Piece (Option α) where
  write
    | none => "null".toList
    | some a => '{' :: p.write a
  read
    | '{' :: s => (p.read s).map fun r => (some r.1, r.2)
    | s => (expect "null".toList s).map fun rest => (none, rest)
  read_write a rest := by
    cases a with
    | none => rfl
    | some a =>
      show (p.read (p.write a ++ rest)).map _ = _
      rw [p.read_write, Option.map_some]

/-- The objects that follow in a list, and its end. -/
def writeTail (p : Piece α) : List α → Str
  | [] => [']']
  | a :: as => ',' :: '{' :: (p.write a ++ writeTail p as)

/-- Read what follows in a list, at most `n` objects. -/
def readTail (p : Piece α) : ℕ → Str → Option (List α × Str)
  | _, ']' :: rest => some ([], rest)
  | n + 1, ',' :: '{' :: s => (p.read s).bind fun r => (readTail p n r.2).map fun rs => (r.1 :: rs.1, rs.2)
  | _, _ => none

theorem readTail_writeTail (p : Piece α) (as : List α) (rest : Str) {n : ℕ} (hn : as.length ≤ n) :
    readTail p n (writeTail p as ++ rest) = some (as, rest) := by
  induction as generalizing n with
  | nil => cases n <;> rfl
  | cons a as ih =>
    obtain ⟨n, rfl⟩ : ∃ m, n = m + 1 := ⟨n - 1, by simp at hn; omega⟩
    have hcons : writeTail p (a :: as) ++ rest = ',' :: '{' :: (p.write a ++ (writeTail p as ++ rest)) := by
      rw [writeTail, List.cons_append, List.cons_append, List.append_assoc]
    rw [hcons, readTail, p.read_write, Option.bind_some]
    dsimp only
    rw [ih (by simpa using hn), Option.map_some]

theorem length_le_writeTail (p : Piece α) (as : List α) : as.length ≤ (writeTail p as).length := by
  induction as with
  | nil => exact Nat.zero_le _
  | cons a as ih =>
    rw [writeTail, List.length_cons, List.length_cons, List.length_cons, List.length_append]
    omega

/-- A list of objects. -/
def many (p : Piece α) : Piece (List α) where
  write
    | [] => ['[', ']']
    | a :: as => '[' :: '{' :: (p.write a ++ writeTail p as)
  read
    | '[' :: ']' :: rest => some ([], rest)
    | '[' :: '{' :: s => (p.read s).bind fun r => (readTail p s.length r.2).map fun rs => (r.1 :: rs.1, rs.2)
    | _ => none
  read_write as rest := by
    cases as with
    | nil => rfl
    | cons a as =>
      have hlen : as.length ≤ (p.write a ++ (writeTail p as ++ rest)).length := by
        have := length_le_writeTail p as
        simp only [List.length_append]
        omega
      show (p.read (p.write a ++ writeTail p as ++ rest)).bind _ = _
      rw [List.append_assoc, p.read_write, Option.bind_some]
      dsimp only
      rw [readTail_writeTail p as rest (by simpa using hlen), Option.map_some]

/-! ### Whole documents -/

/-- The document of a value, in bytes. -/
def toVec (p : Piece α) (a : α) : Bytes := utf8 (p.write a)

/-- The value of a document: nothing may follow it. -/
def fromSlice (p : Piece α) (bs : Bytes) : Option α :=
  match (ofUtf8 bs).bind p.read with
  | some (a, []) => some a
  | _ => none

theorem fromSlice_toVec (p : Piece α) (a : α) : p.fromSlice (p.toVec a) = some a := by
  have h := p.read_write a []
  rw [List.append_nil] at h
  rw [fromSlice, toVec, ofUtf8_utf8, Option.bind_some, h]

/-- A document of one piece is not one of another that cannot read its text. -/
theorem fromSlice_toVec_none (p : Piece α) (q : Piece β) {a : α} (h : q.read (p.write a) = none) :
    q.fromSlice (p.toVec a) = none := by
  rw [fromSlice, toVec, ofUtf8_utf8, Option.bind_some, h]

end Piece

end YeetzS3.Json
