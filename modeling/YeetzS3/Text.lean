import Mathlib

/-!
# Text and bytes

Keys, names and etags are Rust strings, here lists of characters (`Str`), so that they split, compare
and evaluate by structural recursion; object contents are lists of bytes. The pieces of the wire
formats are here too: big-endian `u64`s, hex, the 20-digit sequence component of keys, and the
normalisation `object_store::Path::from` applies to a key before a request is made.
-/

namespace YeetzS3

/-- A Rust string. -/
abbrev Str := List Char

instance lawfulBEq_str : LawfulBEq Str := inferInstance

/-- The content of an object. -/
abbrev Bytes := List UInt8

/-! ### Big-endian integers -/

/-- The low `w` bytes of `n`, most significant first. -/
def beBytes : ℕ → ℕ → Bytes
  | 0, _ => []
  | w + 1, n => beBytes w (n / 256) ++ [UInt8.ofNat (n % 256)]

/-- The number big-endian bytes stand for. -/
def ofBeBytes (bs : Bytes) : ℕ := bs.foldl (fun n b => 256 * n + b.toNat) 0

theorem beBytes_length (w n : ℕ) : (beBytes w n).length = w := by
  induction w generalizing n with
  | zero => rfl
  | succ w ih => simp [beBytes, ih]

theorem ofBeBytes_beBytes (w n : ℕ) : ofBeBytes (beBytes w n) = n % 256 ^ w := by
  induction w generalizing n with
  | zero => simp [beBytes, ofBeBytes, Nat.mod_one]
  | succ w ih =>
    have hb : (UInt8.ofNat (n % 256)).toNat = n % 256 := by simp
    have hs : ofBeBytes (beBytes (w + 1) n) = 256 * ofBeBytes (beBytes w (n / 256)) + n % 256 := by
      simp [beBytes, ofBeBytes]
    rw [hs, ih, pow_succ', Nat.mod_mul, Nat.add_comm]

theorem beBytes_ofBeBytes (bs : Bytes) : beBytes bs.length (ofBeBytes bs) = bs := by
  induction bs using List.reverseRecOn with
  | nil => rfl
  | append_singleton bs b ih =>
    have hb : b.toNat < 256 := b.toNat_lt
    have ho : ofBeBytes (bs ++ [b]) = 256 * ofBeBytes bs + b.toNat := by simp [ofBeBytes]
    rw [List.length_append, List.length_singleton, beBytes, ho]
    have hd : (256 * ofBeBytes bs + b.toNat) / 256 = ofBeBytes bs := by omega
    have hm : (256 * ofBeBytes bs + b.toNat) % 256 = b.toNat := by omega
    rw [hd, hm, ih]
    simp

/-- `u64::to_be_bytes`. -/
def u64Bytes (n : UInt64) : Bytes := beBytes 8 n.toNat

/-- `u64::from_be_bytes`, on a slice that must be eight bytes long. -/
def u64OfBytes (bs : Bytes) : Option UInt64 :=
  if bs.length = 8 then some (UInt64.ofNat (ofBeBytes bs)) else none

@[simp] theorem u64Bytes_length (n : UInt64) : (u64Bytes n).length = 8 := beBytes_length ..

@[simp] theorem u64OfBytes_u64Bytes (n : UInt64) : u64OfBytes (u64Bytes n) = some n := by
  have hn : n.toNat < 256 ^ 8 := n.toNat_lt
  rw [u64OfBytes, if_pos (u64Bytes_length n), u64Bytes, ofBeBytes_beBytes, Nat.mod_eq_of_lt hn]
  simp

theorem u64Bytes_of_u64OfBytes {bs : Bytes} {n : UInt64} (h : u64OfBytes bs = some n) : u64Bytes n = bs := by
  unfold u64OfBytes at h
  split at h
  · next hl =>
    cases h
    have hlt : ofBeBytes bs < 256 ^ 8 := by
      have := ofBeBytes_beBytes 8 (ofBeBytes bs)
      rw [← hl, beBytes_ofBeBytes, hl] at this
      rw [this]
      exact Nat.mod_lt _ (by decide)
    have hn : (UInt64.ofNat (ofBeBytes bs)).toNat = ofBeBytes bs := by
      rw [UInt64.toNat_ofNat']
      exact Nat.mod_eq_of_lt hlt
    rw [u64Bytes, hn, ← hl, beBytes_ofBeBytes]
  · cases h

/-! ### Checked arithmetic -/

/-- `u64::checked_add(1)`. -/
def checkedSucc (n : UInt64) : Option UInt64 := if n.toNat + 1 < 2 ^ 64 then some (n + 1) else none

theorem toNat_of_checkedSucc {n m : UInt64} (h : checkedSucc n = some m) : m.toNat = n.toNat + 1 := by
  unfold checkedSucc at h
  split at h
  · next hl =>
    cases h
    rw [UInt64.toNat_add, UInt64.toNat_one]
    exact Nat.mod_eq_of_lt hl
  · cases h

/-! ### Hex -/

/-- One lower-case hex digit. -/
def hexDigit (n : ℕ) : Char := if n < 10 then Char.ofNat (48 + n) else Char.ofNat (87 + n)

/-- `hex::encode`. -/
def hexEncode (bs : Bytes) : Str := bs.flatMap fun b => [hexDigit (b.toNat / 16), hexDigit (b.toNat % 16)]

/-- The value of one hex digit of either case. -/
def hexValue (c : Char) : Option ℕ :=
  if 48 ≤ c.toNat ∧ c.toNat ≤ 57 then some (c.toNat - 48)
  else if 97 ≤ c.toNat ∧ c.toNat ≤ 102 then some (c.toNat - 87)
  else if 65 ≤ c.toNat ∧ c.toNat ≤ 70 then some (c.toNat - 55)
  else none

/-- `hex::decode`. -/
def hexDecode : Str → Option Bytes
  | [] => some []
  | [_] => none
  | hi :: lo :: rest => do
    let h ← hexValue hi
    let l ← hexValue lo
    let bs ← hexDecode rest
    some (UInt8.ofNat (16 * h + l) :: bs)

theorem hexValue_hexDigit {n : ℕ} (h : n < 16) : hexValue (hexDigit n) = some n := by
  interval_cases n <;> rfl

@[simp] theorem hexDecode_hexEncode (bs : Bytes) : hexDecode (hexEncode bs) = some bs := by
  induction bs with
  | nil => rfl
  | cons b bs ih =>
    have hb := b.toNat_lt
    have hhi : hexValue (hexDigit (b.toNat / 16)) = some (b.toNat / 16) := hexValue_hexDigit (by omega)
    have hlo : hexValue (hexDigit (b.toNat % 16)) = some (b.toNat % 16) := hexValue_hexDigit (by omega)
    have hcons : hexEncode (b :: bs) = hexDigit (b.toNat / 16) :: hexDigit (b.toNat % 16) :: hexEncode bs := rfl
    have hsum : 16 * (b.toNat / 16) + b.toNat % 16 = b.toNat := by omega
    rw [hcons, hexDecode, hhi, hlo, ih]
    show some (UInt8.ofNat (16 * (b.toNat / 16) + b.toNat % 16) :: bs) = some (b :: bs)
    rw [hsum, UInt8.ofNat_toNat]

/-- Lower-case hex that decodes is what its bytes encode to. -/
theorem hexEncode_of_hexDecode {s : Str} {bs : Bytes} (hl : ∀ c ∈ s, c.toNat < 65 ∨ 70 < c.toNat)
    (h : hexDecode s = some bs) : hexEncode bs = s := by
  have hdigit : ∀ {c : Char} {n : ℕ}, c.toNat < 65 ∨ 70 < c.toNat → hexValue c = some n → n < 16 ∧ hexDigit n = c := by
    intro c n hc hn
    have hof : ∀ m, c.toNat = m → Char.ofNat m = c := fun m hm => by rw [← hm, Char.ofNat_toNat]
    unfold hexValue at hn
    split at hn
    · cases hn
      refine ⟨by omega, ?_⟩
      rw [hexDigit, if_pos (by omega)]
      exact hof _ (by omega)
    split at hn
    · cases hn
      refine ⟨by omega, ?_⟩
      rw [hexDigit, if_neg (by omega)]
      exact hof _ (by omega)
    split at hn
    · omega
    · cases hn
  induction s using hexDecode.induct generalizing bs with
  | case1 =>
    cases h
    rfl
  | case2 c => cases h
  | case3 hi lo rest ih =>
    obtain ⟨a, ha, h⟩ := Option.bind_eq_some_iff.1 h
    obtain ⟨b, hb, h⟩ := Option.bind_eq_some_iff.1 h
    obtain ⟨tail, htail, h⟩ := Option.bind_eq_some_iff.1 h
    cases h
    obtain ⟨hla, hda⟩ := hdigit (hl hi (by simp)) ha
    obtain ⟨hlb, hdb⟩ := hdigit (hl lo (by simp)) hb
    have hv : (UInt8.ofNat (16 * a + b)).toNat = 16 * a + b := by
      rw [UInt8.toNat_ofNat']
      exact Nat.mod_eq_of_lt (by omega)
    have hcons : hexEncode (UInt8.ofNat (16 * a + b) :: tail) = hexDigit ((UInt8.ofNat (16 * a + b)).toNat / 16) ::
        hexDigit ((UInt8.ofNat (16 * a + b)).toNat % 16) :: hexEncode tail := rfl
    have hdiv : (16 * a + b) / 16 = a := by omega
    have hmod : (16 * a + b) % 16 = b := by omega
    rw [hcons, hv, hdiv, hmod, hda, hdb, ih (fun c hc => hl c (by simp [hc])) htail]

/-! ### Decimal keys -/

/-- The low `w` decimal digits of `n`, zero-padded. -/
def decDigits : ℕ → ℕ → Str
  | 0, _ => []
  | w + 1, n => decDigits w (n / 10) ++ [Char.ofNat (48 + n % 10)]

/-- The number a string of decimal digits stands for. -/
def ofDecDigits (s : Str) : ℕ := s.foldl (fun n c => 10 * n + (c.toNat - 48)) 0

/-- `format!("{seq:020}")`: every `u64` has at most 20 digits. -/
def seqComponent (seq : UInt64) : Str := decDigits 20 seq.toNat

/-- Parse a 20-digit zero-padded component; a number past `u64::MAX` does not parse. -/
def parseSeqComponent (component : Str) : Option UInt64 :=
  if component.length = 20 ∧ component.all Char.isDigit then
    if ofDecDigits component < 2 ^ 64 then some (UInt64.ofNat (ofDecDigits component)) else none
  else none

theorem decDigits_length (w n : ℕ) : (decDigits w n).length = w := by
  induction w generalizing n with
  | zero => rfl
  | succ w ih => simp [decDigits, ih]

private theorem digit_toNat {d : ℕ} (h : d < 10) : (Char.ofNat (48 + d)).toNat = 48 + d := by
  interval_cases d <;> rfl

theorem decDigits_isDigit (w n : ℕ) : (decDigits w n).all Char.isDigit = true := by
  induction w generalizing n with
  | zero => rfl
  | succ w ih =>
    have hd : (Char.ofNat (48 + n % 10)).isDigit = true := by
      have : n % 10 < 10 := Nat.mod_lt _ (by decide)
      interval_cases n % 10 <;> rfl
    simp [decDigits, ih, hd]

theorem ofDecDigits_decDigits (w n : ℕ) : ofDecDigits (decDigits w n) = n % 10 ^ w := by
  induction w generalizing n with
  | zero => simp [decDigits, ofDecDigits, Nat.mod_one]
  | succ w ih =>
    have hd := digit_toNat (Nat.mod_lt n (show 0 < 10 by decide))
    have hs : ofDecDigits (decDigits (w + 1) n) = 10 * ofDecDigits (decDigits w (n / 10)) + n % 10 := by
      simp [decDigits, ofDecDigits, hd]
    rw [hs, ih, pow_succ', Nat.mod_mul, Nat.add_comm]

theorem decDigits_ofDecDigits {s : Str} (h : s.all Char.isDigit = true) : decDigits s.length (ofDecDigits s) = s := by
  have hdigit : ∀ n < 58, (Char.ofNat n).isDigit = true → 48 ≤ n := by decide +kernel
  induction s using List.reverseRecOn with
  | nil => rfl
  | append_singleton s c ih =>
    rw [List.all_append, Bool.and_eq_true] at h
    have hc : c.isDigit = true := by simpa using h.2
    have hlt : c.toNat < 58 := by
      simp only [Char.isDigit, Bool.and_eq_true, decide_eq_true_eq, UInt32.le_iff_toNat_le] at hc
      exact Nat.lt_succ_of_le hc.2
    have hge : 48 ≤ c.toNat := hdigit c.toNat hlt (by rwa [Char.ofNat_toNat])
    have hv : ofDecDigits (s ++ [c]) = 10 * ofDecDigits s + (c.toNat - 48) := by simp [ofDecDigits]
    have hdiv : (10 * ofDecDigits s + (c.toNat - 48)) / 10 = ofDecDigits s := by omega
    have hmod : 48 + (10 * ofDecDigits s + (c.toNat - 48)) % 10 = c.toNat := by omega
    rw [List.length_append, List.length_singleton, decDigits, hv, hdiv, hmod, ih h.1, Char.ofNat_toNat]

/-- A component that parses is the one of its number. -/
theorem seqComponent_of_parse {s : Str} {n : UInt64} (h : parseSeqComponent s = some n) : s = seqComponent n := by
  unfold parseSeqComponent at h
  split at h
  · next hs =>
    split at h
    · next hlt =>
      cases h
      rw [seqComponent, UInt64.toNat_ofNat_of_lt' hlt, ← hs.1, decDigits_ofDecDigits hs.2]
    · cases h
  · cases h

theorem seqComponent_length (seq : UInt64) : (seqComponent seq).length = 20 := decDigits_length ..

@[simp] theorem parseSeqComponent_seqComponent (seq : UInt64) : parseSeqComponent (seqComponent seq) = some seq := by
  have hlt : seq.toNat < 2 ^ 64 := seq.toNat_lt
  have hv : ofDecDigits (seqComponent seq) = seq.toNat := by
    rw [seqComponent, ofDecDigits_decDigits]
    exact Nat.mod_eq_of_lt (by omega)
  rw [parseSeqComponent, if_pos ⟨seqComponent_length seq, decDigits_isDigit ..⟩, hv, if_pos hlt]
  simp

theorem seqComponent_injective : Function.Injective seqComponent := fun a b h => by
  simpa using congrArg parseSeqComponent h

/-- Strings of one length compare at their last characters when they agree before. -/
theorem concat_lt_concat {a b : Str} {c d : Char} (h : a.length = b.length) :
    a ++ [c] < b ++ [d] ↔ a < b ∨ a = b ∧ c < d := by
  induction a generalizing b with
  | nil =>
    obtain rfl := List.eq_nil_of_length_eq_zero h.symm
    simp [List.cons_lt_cons_iff]
  | cons x a ih =>
    cases b with
    | nil => cases h
    | cons y b =>
      rw [List.cons_append, List.cons_append, List.cons_lt_cons_iff, List.cons_lt_cons_iff, ih (Nat.succ.inj h),
        List.cons.injEq]
      tauto

/-- Zero-padded decimals are in the order of their numbers. -/
theorem decDigits_lt {w m n : ℕ} (hm : m < 10 ^ w) (hn : n < 10 ^ w) : decDigits w m < decDigits w n ↔ m < n := by
  induction w generalizing m n with
  | zero =>
    rw [pow_zero] at hm hn
    simp only [decDigits]
    simp
    omega
  | succ w ih =>
    have hdigit : ∀ a < 10, ∀ b < 10, (Char.ofNat (48 + a) < Char.ofNat (48 + b) ↔ a < b) := by decide
    have hinj : ∀ {a b}, a < 10 ^ w → b < 10 ^ w → (decDigits w a = decDigits w b ↔ a = b) := by
      refine fun {a b} ha hb => ⟨fun h => ?_, fun h => h ▸ rfl⟩
      have := congrArg ofDecDigits h
      rwa [ofDecDigits_decDigits, ofDecDigits_decDigits, Nat.mod_eq_of_lt ha, Nat.mod_eq_of_lt hb] at this
    have hm' : m / 10 < 10 ^ w := Nat.div_lt_of_lt_mul (by rwa [← pow_succ'])
    have hn' : n / 10 < 10 ^ w := Nat.div_lt_of_lt_mul (by rwa [← pow_succ'])
    rw [decDigits, decDigits, concat_lt_concat (by rw [decDigits_length, decDigits_length]), ih hm' hn', hinj hm' hn',
      hdigit _ (Nat.mod_lt _ (by decide)) _ (Nat.mod_lt _ (by decide))]
    omega

theorem seqComponent_lt {a b : UInt64} : seqComponent a < seqComponent b ↔ a < b := by
  have hlt : ∀ n : UInt64, n.toNat < 10 ^ 20 := fun n => n.toNat_lt.trans (by decide)
  rw [seqComponent, seqComponent, decDigits_lt (hlt a) (hlt b), UInt64.lt_iff_toNat_lt]
/-! ### Cutting a list into chunks -/

/-- Cutting goes on from what is cut already, `acc₂`, and a chunk begun, `acc₁`. -/
theorem toChunks_go {α : Type} {n : ℕ} {xs : List α} {acc₁ : Array α} {acc₂ : Array (List α)} (h₁ : 1 ≤ acc₁.size) (hn : acc₁.size ≤ n) :
    ∃ full last, List.toChunks.go n xs acc₁ acc₂ = acc₂.toList ++ (full ++ [last]) ∧ (∀ c ∈ full, c.length = n) ∧
      1 ≤ last.length ∧ last.length ≤ n ∧ full.flatten ++ last = acc₁.toList ++ xs := by
  induction xs generalizing acc₁ acc₂ with
  | nil => exact ⟨[], acc₁.toList, by simp [List.toChunks.go], by simp, by simpa, by simpa, by simp⟩
  | cons x xs ih =>
    rw [List.toChunks.go]
    split
    · next hfull =>
      have hsize : acc₁.size = n := by simpa using hfull
      obtain ⟨full, last, hgo, hf, hl, hle, hflat⟩ := @ih ((Array.mkEmpty n).push x) (acc₂.push acc₁.toList)
        (by simp) (by simp; omega)
      refine ⟨acc₁.toList :: full, last, by rw [hgo]; simp, ?_, hl, hle, ?_⟩
      · intro c hc
        rcases List.mem_cons.1 hc with rfl | hc
        · simpa using hsize
        · exact hf c hc
      · rw [List.flatten_cons, List.append_assoc, hflat]
        simp
    · next hfull =>
      have hsize : acc₁.size ≠ n := by simpa using hfull
      obtain ⟨full, last, hgo, hf, hl, hle, hflat⟩ := @ih (acc₁.push x) acc₂ (by simp) (by simp; omega)
      exact ⟨full, last, hgo, hf, hl, hle, by rw [hflat]; simp⟩

theorem flatten_toChunks {α : Type} {n : ℕ} (hn : 0 < n) (xs : List α) : (xs.toChunks n).flatten = xs := by
  obtain ⟨m, rfl⟩ := Nat.exists_eq_add_of_lt hn
  cases xs with
  | nil => rfl
  | cons x xs =>
    obtain ⟨full, last, hgo, -, -, -, hflat⟩ := @toChunks_go _ (0 + m + 1) xs #[x] #[] (Nat.le_refl 1) (by simp)
    have hcut : (x :: xs).toChunks (0 + m + 1) = List.toChunks.go (0 + m + 1) xs #[x] #[] := rfl
    rw [hcut, hgo]
    simpa using hflat

end YeetzS3
