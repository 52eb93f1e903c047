import YeetzS3.Text

/-!
# SHA-256

The hash every digest of the repository is made with, as an executable function. The development takes the
hash as a parameter; this is the function the parameter stands for.
-/

namespace YeetzS3.Sha256

/-- The round constants. -/
def roundConstants : List UInt32 :=
  [0x428a2f98, 0x71374491, 0xb5c0fbcf, 0xe9b5dba5, 0x3956c25b, 0x59f111f1, 0x923f82a4, 0xab1c5ed5,
   0xd807aa98, 0x12835b01, 0x243185be, 0x550c7dc3, 0x72be5d74, 0x80deb1fe, 0x9bdc06a7, 0xc19bf174,
   0xe49b69c1, 0xefbe4786, 0x0fc19dc6, 0x240ca1cc, 0x2de92c6f, 0x4a7484aa, 0x5cb0a9dc, 0x76f988da,
   0x983e5152, 0xa831c66d, 0xb00327c8, 0xbf597fc7, 0xc6e00bf3, 0xd5a79147, 0x06ca6351, 0x14292967,
   0x27b70a85, 0x2e1b2138, 0x4d2c6dfc, 0x53380d13, 0x650a7354, 0x766a0abb, 0x81c2c92e, 0x92722c85,
   0xa2bfe8a1, 0xa81a664b, 0xc24b8b70, 0xc76c51a3, 0xd192e819, 0xd6990624, 0xf40e3585, 0x106aa070,
   0x19a4c116, 0x1e376c08, 0x2748774c, 0x34b0bcb5, 0x391c0cb3, 0x4ed8aa4a, 0x5b9cca4f, 0x682e6ff3,
   0x748f82ee, 0x78a5636f, 0x84c87814, 0x8cc70208, 0x90befffa, 0xa4506ceb, 0xbef9a3f7, 0xc67178f2]

/-- The eight working words. -/
structure Words where
  a : UInt32
  b : UInt32
  c : UInt32
  d : UInt32
  e : UInt32
  f : UInt32
  g : UInt32
  h : UInt32

/-- The initial hash value. -/
def initial : Words :=
  ⟨0x6a09e667, 0xbb67ae85, 0x3c6ef372, 0xa54ff53a, 0x510e527f, 0x9b05688c, 0x1f83d9ab, 0x5be0cd19⟩

/-- Rotate right. -/
def rotr (x n : UInt32) : UInt32 := (x >>> n) ||| (x <<< (32 - n))

/-- `n` more words of the message schedule, latest word first. -/
def extend : ℕ → List UInt32 → List UInt32
  | 0, w => w
  | n + 1, w =>
    let s₀ := rotr (w.getD 14 0) 7 ^^^ rotr (w.getD 14 0) 18 ^^^ (w.getD 14 0 >>> 3)
    let s₁ := rotr (w.getD 1 0) 17 ^^^ rotr (w.getD 1 0) 19 ^^^ (w.getD 1 0 >>> 10)
    extend n ((w.getD 15 0 + s₀ + w.getD 6 0 + s₁) :: w)

/-- One round. -/
def round (s : Words) (kw : UInt32 × UInt32) : Words :=
  let t₁ := s.h + (rotr s.e 6 ^^^ rotr s.e 11 ^^^ rotr s.e 25) + ((s.e &&& s.f) ^^^ (~~~ s.e &&& s.g)) + kw.1 + kw.2
  let t₂ := (rotr s.a 2 ^^^ rotr s.a 13 ^^^ rotr s.a 22) + ((s.a &&& s.b) ^^^ (s.a &&& s.c) ^^^ (s.b &&& s.c))
  ⟨t₁ + t₂, s.a, s.b, s.c, s.d + t₁, s.e, s.f, s.g⟩

/-- One block of 64 bytes. -/
def block (s : Words) (bs : Bytes) : Words :=
  let w := (bs.toChunks 4).map fun b => UInt32.ofNat (ofBeBytes b)
  let r := (roundConstants.zip (extend 48 w.reverse).reverse).foldl round s
  ⟨s.a + r.a, s.b + r.b, s.c + r.c, s.d + r.d, s.e + r.e, s.f + r.f, s.g + r.g, s.h + r.h⟩

/-- The message, padded to whole blocks. -/
def padded (bs : Bytes) : Bytes :=
  bs ++ [0x80] ++ List.replicate ((119 - bs.length % 64) % 64) 0 ++ beBytes 8 (8 * bs.length)

/-- The bytes of the words. -/
def Words.bytes (s : Words) : Bytes :=
  [s.a, s.b, s.c, s.d, s.e, s.f, s.g, s.h].flatMap fun w => beBytes 4 w.toNat

/-- The hash. -/
def digest (bs : Bytes) : Bytes := (((padded bs).toChunks 64).foldl block initial).bytes

theorem digest_length (bs : Bytes) : (digest bs).length = 32 := by
  simp [digest, Words.bytes, beBytes_length]

end YeetzS3.Sha256
