import YeetzS3.Text

/-!
# Base64

The standard alphabet with padding, as `general_purpose::STANDARD` writes it. The decoder takes nothing but what the
encoder writes: padding must be there, and the bits it stands for must be zero.
-/

namespace YeetzS3.Base64

/-- A six-bit digit. -/
def digit (n : ℕ) : Char :=
  if n < 26 then Char.ofNat (65 + n) else if n < 52 then Char.ofNat (71 + n) else if n < 62 then Char.ofNat (n - 4)
  else if n = 62 then '+' else '/'

/-- The value of a digit. -/
def value (c : Char) : Option ℕ :=
  if 65 ≤ c.toNat ∧ c.toNat ≤ 90 then some (c.toNat - 65)
  else if 97 ≤ c.toNat ∧ c.toNat ≤ 122 then some (c.toNat - 71)
  else if 48 ≤ c.toNat ∧ c.toNat ≤ 57 then some (c.toNat + 4)
  else if c = '+' then some 62
  else if c = '/' then some 63
  else none

theorem value_digit {n : ℕ} (h : n < 64) : value (digit n) = some n := by
  interval_cases n <;> rfl

theorem digit_ne_pad {n : ℕ} (h : n < 64) : digit n ≠ '=' := by
  interval_cases n <;> decide

/-- `Engine::encode`: three bytes become four digits. -/
def encode : Bytes → Str
  | [] => []
  | [a] => [digit (a.toNat / 4), digit (a.toNat % 4 * 16), '=', '=']
  | [a, b] => [digit (a.toNat / 4), digit (a.toNat % 4 * 16 + b.toNat / 16), digit (b.toNat % 16 * 4), '=']
  | a :: b :: c :: rest => digit (a.toNat / 4) :: digit (a.toNat % 4 * 16 + b.toNat / 16) ::
      digit (b.toNat % 16 * 4 + c.toNat / 64) :: digit (c.toNat % 64) :: encode rest

/-- The bytes of the last four digits, padding included. -/
def decodeLast (p q r s : Char) : Option Bytes := do
  let x ← value p
  let y ← value q
  if r = '=' then
    guard (s = '=' ∧ y % 16 = 0)
    some [UInt8.ofNat (x * 4 + y / 16)]
  else
    let z ← value r
    if s = '=' then
      guard (z % 4 = 0)
      some [UInt8.ofNat (x * 4 + y / 16), UInt8.ofNat (y % 16 * 16 + z / 4)]
    else
      let w ← value s
      some [UInt8.ofNat (x * 4 + y / 16), UInt8.ofNat (y % 16 * 16 + z / 4), UInt8.ofNat (z % 4 * 64 + w)]

/-- `Engine::decode`. -/
def decode : Str → Option Bytes
  | [] => some []
  | [p, q, r, s] => decodeLast p q r s
  | p :: q :: r :: s :: rest => do
    let x ← value p
    let y ← value q
    let z ← value r
    let w ← value s
    let tail ← decode rest
    some (UInt8.ofNat (x * 4 + y / 16) :: UInt8.ofNat (y % 16 * 16 + z / 4) :: UInt8.ofNat (z % 4 * 64 + w) :: tail)
  | _ => none

theorem encode_ne_nil {bs : Bytes} (h : bs ≠ []) : encode bs ≠ [] := by
  match bs with
  | [] => exact absurd rfl h
  | [_] | [_, _] | _ :: _ :: _ :: _ => exact List.cons_ne_nil _ _

/-- Four digits before other text. -/
theorem decode_cons {p q r s : Char} {rest : Str} (h : rest ≠ []) : decode (p :: q :: r :: s :: rest) = (do
    let x ← value p
    let y ← value q
    let z ← value r
    let w ← value s
    let tail ← decode rest
    some (UInt8.ofNat (x * 4 + y / 16) :: UInt8.ofNat (y % 16 * 16 + z / 4) :: UInt8.ofNat (z % 4 * 64 + w) :: tail)) := by
  cases rest with
  | nil => exact absurd rfl h
  | cons c rest => rfl

/-- What was encoded reads back. -/
theorem decode_encode (bs : Bytes) : decode (encode bs) = some bs := by
  have hbyte : ∀ (a : UInt8) (n : ℕ), n = a.toNat → UInt8.ofNat n = a := fun a n h => by rw [h, UInt8.ofNat_toNat]
  induction bs using encode.induct with
  | case1 => rfl
  | case2 a =>
    have ha := a.toNat_lt
    have hx : value (digit (a.toNat / 4)) = some (a.toNat / 4) := value_digit (by omega)
    have hy : value (digit (a.toNat % 4 * 16)) = some (a.toNat % 4 * 16) := value_digit (by omega)
    have hpad : a.toNat % 4 * 16 % 16 = 0 := by omega
    simp only [encode, decode, decodeLast, hx, hy, Option.bind_eq_bind, Option.bind_some, if_true, guard, hpad, and_self,
      pure]
    rw [hbyte a _ (by omega)]
  | case3 a b =>
    have ha := a.toNat_lt
    have hb := b.toNat_lt
    have hx : value (digit (a.toNat / 4)) = some (a.toNat / 4) := value_digit (by omega)
    have hy : value (digit (a.toNat % 4 * 16 + b.toNat / 16)) = some (a.toNat % 4 * 16 + b.toNat / 16) :=
      value_digit (by omega)
    have hz : value (digit (b.toNat % 16 * 4)) = some (b.toNat % 16 * 4) := value_digit (by omega)
    have hne : digit (b.toNat % 16 * 4) ≠ '=' := digit_ne_pad (by omega)
    have hpad : b.toNat % 16 * 4 % 4 = 0 := by omega
    simp only [encode, decode, decodeLast, hx, hy, hz, Option.bind_eq_bind, Option.bind_some, if_true, guard, hpad,
      if_neg hne, pure]
    rw [hbyte a _ (by omega), hbyte b _ (by omega)]
  | case4 a b c rest ih =>
    have ha := a.toNat_lt
    have hb := b.toNat_lt
    have hc := c.toNat_lt
    have hx : value (digit (a.toNat / 4)) = some (a.toNat / 4) := value_digit (by omega)
    have hy : value (digit (a.toNat % 4 * 16 + b.toNat / 16)) = some (a.toNat % 4 * 16 + b.toNat / 16) :=
      value_digit (by omega)
    have hz : value (digit (b.toNat % 16 * 4 + c.toNat / 64)) = some (b.toNat % 16 * 4 + c.toNat / 64) :=
      value_digit (by omega)
    have hw : value (digit (c.toNat % 64)) = some (c.toNat % 64) := value_digit (by omega)
    have hza : digit (b.toNat % 16 * 4 + c.toNat / 64) ≠ '=' := digit_ne_pad (by omega)
    have hwa : digit (c.toNat % 64) ≠ '=' := digit_ne_pad (by omega)
    have h₁ : UInt8.ofNat (a.toNat / 4 * 4 + (a.toNat % 4 * 16 + b.toNat / 16) / 16) = a := hbyte a _ (by omega)
    have h₂ : UInt8.ofNat ((a.toNat % 4 * 16 + b.toNat / 16) % 16 * 16 + (b.toNat % 16 * 4 + c.toNat / 64) / 4) = b :=
      hbyte b _ (by omega)
    have h₃ : UInt8.ofNat ((b.toNat % 16 * 4 + c.toNat / 64) % 4 * 64 + c.toNat % 64) = c := hbyte c _ (by omega)
    by_cases hr : rest = []
    · subst hr
      simp only [encode, decode, decodeLast, hx, hy, hz, hw, Option.bind_eq_bind, Option.bind_some, if_neg hza, if_neg hwa]
      rw [h₁, h₂, h₃]
    · rw [encode, decode_cons (encode_ne_nil hr), ih]
      simp only [hx, hy, hz, hw, Option.bind_eq_bind, Option.bind_some]
      rw [h₁, h₂, h₃]

end YeetzS3.Base64
