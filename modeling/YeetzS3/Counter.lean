import YeetzS3.Store

/-!
# Lifetime counters

`AtomicKeyspace::current_incarnation`/`bump_incarnation` and `StateKernel::current_incarnation`/
`bump_incarnation` are the same code over different paths and errors: a raw big-endian `u64`, absent for
the first lifetime, created at 1 by the first bump and advanced by compare-and-swap.
-/

namespace YeetzS3

open Conc

/-- The errors of one counter's reads and bumps. -/
structure CounterErrors (ε : Type) where
  read : ε
  readMalformed : ε
  bumpNoEtag : ε
  bumpMalformed : ε
  bumpExhausted : ε
  bumpPut : ε
  bumpCreate : ε
  bumpRead : ε
  bumpBudget : ε

variable {ε : Type}

/-- `current_incarnation`: 0 when no counter exists. -/
def readCounter (E : CounterErrors ε) (path : Str) : StoreOp ε UInt64 := do
  match ← download path with
  | .ok (raw, _) =>
    match u64OfBytes raw with
    | some n => pure n
    | none => throw E.readMalformed
  | .error .notFound => pure 0
  | .error _ => throw E.read

/-- `bump_incarnation`: a lost race re-reads and re-derives. -/
def bumpCounter (E : CounterErrors ε) (path : Str) : ℕ → StoreOp ε UInt64
  | 0 => throw E.bumpBudget
  | tries + 1 => do
    match ← download path with
    | .ok (_, none) => throw E.bumpNoEtag
    | .ok (raw, some etag) =>
      match u64OfBytes raw with
      | none => throw E.bumpMalformed
      | some current =>
        match checkedSucc current with
        | none => throw E.bumpExhausted
        | some next =>
          match ← uploadConditional path (u64Bytes next) (some etag) with
          | .ok _ => pure next
          | .error .preconditionFailed => bumpCounter E path tries
          | .error _ => throw E.bumpPut
    | .error .notFound =>
      match ← uploadConditional path (u64Bytes 1) none with
      | .ok _ => pure 1
      | .error .preconditionFailed => bumpCounter E path tries
      | .error _ => throw E.bumpCreate
    | .error _ => throw E.bumpRead

/-! ### What they may ask -/

section
variable {P : Req → Prop} {E : CounterErrors ε} {path : Str} (hg : P (.get path))
include hg

theorem every_readCounter : (readCounter E path).run.Every P fun _ => True := by
  refine Op.every_ask_bind.2 ⟨hg, ?_⟩
  rintro ((_ | _ | _) | ⟨raw, e⟩)
  any_goals trivial
  dsimp only
  split <;> trivial

theorem every_bumpCounter (hp : ∀ d c, P (.put path d c)) (tries : ℕ) :
    (bumpCounter E path tries).run.Every P fun _ => True := by
  induction tries with
  | zero => trivial
  | succ tries ih =>
    refine Op.every_ask_bind.2 ⟨hg, ?_⟩
    rintro ((_ | _ | _) | ⟨raw, _ | etag⟩)
    any_goals trivial
    · refine Op.every_ask_bind.2 ⟨hp _ _, ?_⟩
      rintro ((_ | _ | _) | y)
      all_goals first | exact ih | trivial
    · dsimp only
      split
      · trivial
      split
      · trivial
      refine Op.every_ask_bind.2 ⟨hp _ _, ?_⟩
      rintro ((_ | _ | _) | y)
      all_goals first | exact ih | trivial

end

end YeetzS3
