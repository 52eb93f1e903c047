import YeetzS3.Streams.Format
import YeetzS3.Keyspace.Deletes

/-!
# Writing a log

`lib.rs` of `yeetz-s3-streams` up to `append`, as programs of store requests over the keyspace operations: the genesis,
the tail hint and its walks, `trim`, `gc` and the allocation loop. What a source function answers with an error that its
caller throws away is a program without failures here; a loop without a bound of its own takes its fuel as an argument.
-/

namespace YeetzS3.Streams

open Conc
open Keyspace (AtomicKeyspace KeyOp TrimState DeleteBelowReport listAfter get getWithEtag create compareExchange)

/-- A streams operation. -/
abbrev StreamOp (α : Type) := StoreOp StreamsError α

/-- A program that fails in no way its caller sees. -/
abbrev Quiet (α : Type) := Prog Req Resp α

/-- A pure check inside an operation. -/
def check {ε α : Type} : Except ε α → StoreOp ε α
  | .ok a => pure a
  | .error e => throw e

/-- `.map_err(..)` on an operation. -/
def mapErr {ε ε' α : Type} (f : ε' → ε) (p : StoreOp ε' α) : StoreOp ε α := do
  match ← Op.attempt p with
  | .ok a => pure a
  | .error e => throw (f e)

/-- `Seq::MAX`. -/
def maxSeq : UInt64 := 18446744073709551615
/-- `APPEND_BUDGET`. -/
def appendBudget : ℕ := 64
/-- `IDEMPOTENT_SCAN_WINDOW`. -/
def idempotentScanWindow : UInt64 := 16

/-- `u64::saturating_add`. -/
def satAdd (a b : UInt64) : UInt64 := if a.toNat + b.toNat < 2 ^ 64 then a + b else maxSeq
/-- `u64::saturating_sub`. -/
def satSub (a b : UInt64) : UInt64 := if b ≤ a then a - b else 0

variable (X : Crates) (K : AtomicKeyspace) (fuel : ℕ) (ids : ℕ → Bytes)

/-- GET and verify one log object where its damage is the caller's error. -/
def verify (stream : StreamId) (seq : UInt64) (bytes : Bytes) : Except StreamsError Envelope :=
  match Envelope.decodeAndVerify X stream seq bytes with
  | some envelope => .ok envelope
  | none => .error (.corrupt stream [seq])

/-! ### Genesis and floor -/

/-- `create_stream`, once it minted `stream`. -/
def createStream (stream : StreamId) (config : Bytes) : StreamOp StreamId := do
  let genesis ← check (Envelope.genesis X stream config)
  mapErr (mapKeyspace "create_stream") (create X.toOutside K fuel (stream.logKey 0) genesis.encoded ids)
  pure stream

/-- `read_config`. -/
def readConfig (stream : StreamId) : StreamOp (Option Bytes) := do
  match ← mapErr (mapKeyspace "read_config") (get X.toOutside K (stream.logKey 0)) with
  | none => pure none
  | some bytes => do
    let envelope ← check (verify X stream 0 bytes)
    pure (some envelope.payload)

/-- `trim_floor`. -/
def trimFloor (stream : StreamId) : StreamOp (Option UInt64) :=
  mapErr (mapKeyspace "trim_floor") (Keyspace.trimFloor K fuel stream.value)

/-! ### The tail hint -/

/-- `read_tail_hint`. -/
def readTailHint (stream : StreamId) : StreamOp (Option TailHint) := do
  match ← mapErr (mapKeyspace "read tail hint") (get X.toOutside K stream.tailKey) with
  | none => pure none
  | some bytes =>
    match X.tailHint.fromSlice bytes with
    | none => throw (.corrupt stream [])
    | some hint => if hint.formatVersion ≠ envelopeFormatVersion then throw (.corrupt stream []) else pure (some hint)

/-- The record a hint names is the one it was written for. -/
def hintConfirmed (stream : StreamId) (hint : TailHint) (bytes : Bytes) : Bool :=
  (Envelope.decodeAndVerify X stream hint.highestValidatedDenseSeq bytes).any
    (·.digestHex X = hint.terminalRecordDigest)

/-- `verified_tail_hint`. -/
def verifiedTailHint (stream : StreamId) : Quiet (Option TailHint) := do
  match ← (readTailHint X K stream).run with
  | .ok (some hint) =>
    match ← (get X.toOutside K (stream.logKey hint.highestValidatedDenseSeq)).run with
    | .ok (some bytes) => pure (if hintConfirmed X stream hint bytes then some hint else none)
    | .ok none | .error _ => pure none
  | .ok none | .error _ => pure none

/-- Whether the hint that is there gives way to one for `landed` with `digest`. -/
def hintGivesWay (stream : StreamId) (landed : UInt64) (digest : Str) (bytes : Bytes) : Quiet Bool :=
  match X.tailHint.fromSlice bytes with
  | none => pure true
  | some current =>
    if current.formatVersion ≠ envelopeFormatVersion then pure true
    else if current.highestValidatedDenseSeq < landed then pure true
    else if current.highestValidatedDenseSeq = landed then pure (current.terminalRecordDigest ≠ digest)
    else do
      match ← (get X.toOutside K (stream.logKey current.highestValidatedDenseSeq)).run with
      | .ok (some bytes) => pure (!hintConfirmed X stream current bytes)
      | .ok none => pure true
      | .error _ => pure false

/-- `advance_tail_hint`. -/
def advanceTailHint (stream : StreamId) (landed : UInt64) (envelope : Envelope) : Quiet Unit := do
  let digest := envelope.digestHex X
  let desired := X.tailHint.toVec ⟨envelopeFormatVersion, landed, digest⟩
  match ← (getWithEtag X.toOutside K stream.tailKey).run with
  | .ok none => do
    let _ ← (create X.toOutside K fuel stream.tailKey desired ids).run
    pure ()
  | .ok (some (bytes, etag)) => do
    if ← hintGivesWay X K stream landed digest bytes then do
      let _ ← (compareExchange X.toOutside K fuel stream.tailKey etag desired (ids 0)).run
      pure ()
    else pure ()
  | .error _ => pure ()

/-! ### The end of the log -/

/-- The number of a log key, if it is one of this stream. -/
def StreamId.seqOf (stream : StreamId) (key : Str) : Option UInt64 :=
  (Keyspace.stripPrefix stream.logPrefix key).bind parseSeqComponent

/-- One page of the walk of `list_log_max`: where to go on, the largest number so far, and whether there was one. -/
def maxPage (stream : StreamId) : List Str → Option Str × UInt64 × Bool → Option Str × UInt64 × Bool
  | [], r => r
  | key :: keys, (after, best, advanced) =>
    match stream.seqOf key with
    | some seq => maxPage stream keys (some key, max best seq, true)
    | none => maxPage stream keys (after, best, advanced)

/-- The loop of `list_log_max`. -/
def listLogMaxLoop (stream : StreamId) : ℕ → Option Str → UInt64 → StreamOp UInt64
  | 0, _, _ => Op.stop
  | fuel + 1, after, best => do
    let keys ← mapErr (mapKeyspace "append: list floor") (listAfter K after 1000)
    if keys = [] then pure best
    else match maxPage stream keys (after, best, false) with
      | (_, best, false) => pure best
      | (after, best, true) => listLogMaxLoop stream fuel after best

/-- `list_log_max`. -/
def listLogMax (stream : StreamId) : StreamOp UInt64 := do
  let hint ← ExceptT.lift (verifiedTailHint X K stream)
  let seed := hint.elim 0 fun hint => satSub hint.highestValidatedDenseSeq idempotentScanWindow
  listLogMaxLoop K stream fuel (some (stream.logKey seed)) seed

/-- `next_log_key_after`. -/
def nextLogKeyAfter (stream : StreamId) (after : UInt64) : KeyOp (Option UInt64) := do
  let keys ← listAfter K (some (stream.logKey after)) 2
  pure ((keys.filterMap stream.seqOf).filter (after < ·)).min?

/-! ### Trims -/

/-- `trim`. -/
def trim (stream : StreamId) (firstRetained : UInt64) : StreamOp TrimState := do
  if firstRetained = 0 then throw (.invalidArgument .trimGenesis)
  else do
    match ← mapErr (mapKeyspace "trim: genesis") (get X.toOutside K (stream.logKey 0)) with
    | none => throw (.streamNotFound stream)
    | some _ => do
      let listMax ← listLogMax X K fuel stream
      let hint ← ExceptT.lift (verifiedTailHint X K stream)
      let logEnd := max listMax (hint.elim 0 (·.highestValidatedDenseSeq))
      if firstRetained > logEnd + 1 then throw (.invalidArgument (.trimBeyondEnd firstRetained logEnd))
      else mapErr (mapKeyspace "trim: propose") (Keyspace.proposeTrim K fuel stream.value firstRetained)

/-- `gc`. -/
def gc (stream : StreamId) : StreamOp DeleteBelowReport := do
  match ← trimFloor K fuel stream with
  | none => pure ⟨0, 0, 0⟩
  | some floor => mapErr (mapKeyspace "gc: delete_below") (Keyspace.deleteBelow K fuel stream.value stream.logPrefix floor)

/-! ### Append -/

section
variable (stream : StreamId) (schemaId : SchemaId) (stableEventId : StableEventId) (payload : Bytes)

/-- What an append returns when the event is at `seq`. -/
def receiptAt (seq : UInt64) (payloadSha256 : Str) : AppendReceipt := ⟨stream, seq, stableEventId, payloadSha256⟩

/-- The idempotent scan over `n` positions from `seq` on: the receipt of the event, if it is among them. -/
def appendScan : ℕ → UInt64 → StreamOp (Option AppendReceipt)
  | 0, _ => pure none
  | n + 1, seq => do
    match ← mapErr (mapKeyspace "append: idempotent scan") (get X.toOutside K (stream.logKey seq)) with
    | none => throw (.corrupt stream [seq])
    | some existing => do
      let envelope ← check (verify X stream seq existing)
      if envelope.stableEventId ≠ stableEventId then appendScan n (seq + 1)
      else if envelope.schemaId = schemaId ∧ envelope.payload = payload then do
        ExceptT.lift (advanceTailHint X K fuel ids stream seq envelope)
        pure (some (receiptAt stream stableEventId seq envelope.payloadSha256))
      else throw (.idempotencyConflict stream stableEventId seq)

/-- One attempt of the allocation loop: the receipt, or `none` when a different event holds the position. -/
def appendAt (guess : UInt64) : StreamOp (Option AppendReceipt) := do
  let envelope ← check (Envelope.encode X stream guess schemaId stableEventId payload)
  let receipt := receiptAt stream stableEventId guess envelope.payloadSha256
  match ← Op.attempt (create X.toOutside K fuel (stream.logKey guess) envelope.encoded ids) with
  | .ok () => do
    ExceptT.lift (advanceTailHint X K fuel ids stream guess envelope)
    pure (some receipt)
  | .error (.alreadyExists _) => do
    match ← mapErr (mapKeyspace "append: readback") (get X.toOutside K (stream.logKey guess)) with
    | some bytes =>
      if bytes = envelope.encoded then do
        ExceptT.lift (advanceTailHint X K fuel ids stream guess envelope)
        pure (some receipt)
      else do
        let landed ← check (verify X stream guess bytes)
        if landed.stableEventId = stableEventId then throw (.idempotencyConflict stream stableEventId guess)
        else pure none
    | none => throw (.backendUnqualified "append readback absent after create conflict" [guess])
  | .error err => throw (mapKeyspace "append: create" err)

/-- The allocation loop, `left` conflicts before its budget is exhausted. -/
def appendLoop (left : ℕ) (guess : UInt64) : StreamOp AppendReceipt := do
  match ← appendAt X K fuel ids stream schemaId stableEventId payload guess with
  | some receipt => pure receipt
  | none =>
    match left with
    | 0 => throw (.appendBudgetExhausted stream guess appendBudget)
    | left + 1 => if guess = maxSeq then throw (.seqExhausted stream) else appendLoop left (guess + 1)

/-- `append` after its snapshot: the end of the log and the floor it saw, and the hint's position. -/
def appendFrom (listMax hintSeq floor : UInt64) : StreamOp AppendReceipt := do
  let eventMax := max listMax hintSeq
  if eventMax = maxSeq then throw (.seqExhausted stream)
  else do
    let scanFrom := max (max (max hintSeq (satSub listMax idempotentScanWindow)) 1) floor
    match ← appendScan X K fuel ids stream schemaId stableEventId payload (eventMax.toNat + 1 - scanFrom.toNat) scanFrom with
    | some receipt => pure receipt
    | none => appendLoop X K fuel ids stream schemaId stableEventId payload appendBudget (max (eventMax + 1) floor)

/-- `append`. -/
def append : StreamOp AppendReceipt := do
  match ← mapErr (mapKeyspace "append: genesis") (get X.toOutside K (stream.logKey 0)) with
  | none => throw (.streamNotFound stream)
  | some genesis => do
    let _ ← check (verify X stream 0 genesis)
    let listMax ← listLogMax X K fuel stream
    let hint ← ExceptT.lift (verifiedTailHint X K stream)
    let floor ← trimFloor K fuel stream
    appendFrom X K fuel ids stream schemaId stableEventId payload listMax (hint.elim 0 (·.highestValidatedDenseSeq))
      (floor.getD 0)

end

end YeetzS3.Streams
