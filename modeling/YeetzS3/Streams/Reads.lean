import YeetzS3.Streams.Log

/-!
# Reading a log

`read` with its completeness witnesses and the healing of the tail hint, the strict reads of `bounded.rs`, and consumer
cursors. The chunks of up to eight GETs that the source keeps in flight are asked in order and looked at together.
-/

namespace YeetzS3.Streams

open Conc
open Keyspace (AtomicKeyspace get getWithEtag create compareExchange)

/-- `FETCH_PARALLELISM`. -/
def fetchParallelism : ℕ := 8

/-- At most `n` positions from `seq` on, `u64::MAX` included. -/
def chunkFrom : ℕ → UInt64 → List UInt64
  | 0, _ => []
  | n + 1, seq => seq :: match checkedSucc seq with
    | some next => chunkFrom n next
    | none => []

/-- `(a..b).collect()`. -/
def seqRange (a b : UInt64) : List UInt64 := (List.range (b.toNat - a.toNat)).map fun i => a + UInt64.ofNat i

variable (X : Crates) (K : AtomicKeyspace) (fuel : ℕ) (ids : ℕ → Bytes)

/-- The GETs of one chunk. -/
def getChunk (stream : StreamId) : List UInt64 → Quiet (List (Except KeyspaceError (Option Bytes)))
  | [] => pure []
  | seq :: seqs => do
    let result ← (get X.toOutside K (stream.logKey seq)).run
    let results ← getChunk stream seqs
    pure (result :: results)

/-! ### Healing the tail hint -/

/-- `heal_tail_hint`. -/
def healTailHint (stream : StreamId) (afterSeq : UInt64) : Option Envelope → Quiet Unit
  | none => pure ()
  | some last => do
    let hint ← verifiedTailHint X K stream
    if ¬ (afterSeq = 0 ∨ hint.any (afterSeq ≤ ·.highestValidatedDenseSeq)) then pure ()
    else if hint.any (last.seq ≤ ·.highestValidatedDenseSeq) then pure ()
    else advanceTailHint X K fuel ids stream last.seq last

/-- The exponential probe of `recover_tail_hint`: the last hit and the span it stopped at, `none` on a failure. -/
def probeUp (stream : StreamId) (start : UInt64) : ℕ → UInt64 → UInt64 → Quiet (Option (UInt64 × UInt64))
  | 0, _, _ => .stop
  | fuel + 1, low, span => do
    let probe := satAdd start span
    if probe = start then pure (some (low, span))
    else match ← (get X.toOutside K (stream.logKey probe)).run with
      | .ok (some _) => probeUp stream start fuel probe (satAdd span span)
      | .ok none => pure (some (low, span))
      | .error _ => pure none

/-- The binary search of `recover_tail_hint`. -/
def bisect (stream : StreamId) : ℕ → UInt64 → UInt64 → Quiet (Option UInt64)
  | 0, _, _ => .stop
  | fuel + 1, low, high =>
    if 1 < high - low then do
      let mid := low + (high - low) / 2
      match ← (get X.toOutside K (stream.logKey mid)).run with
      | .ok (some _) => bisect stream fuel mid high
      | .ok none => bisect stream fuel low mid
      | .error _ => pure none
    else pure (some low)

/-- `recover_tail_hint`. -/
def recoverTailHint (stream : StreamId) (start : UInt64) : Quiet Unit := do
  match ← (get X.toOutside K (stream.logKey start)).run with
  | .ok none | .error _ => pure ()
  | .ok (some _) =>
    match ← probeUp X K stream start fuel start 1 with
    | none => pure ()
    | some (low, span) =>
      match ← bisect X K stream fuel low (satAdd start span) with
      | none => pure ()
      | some low =>
        match ← (get X.toOutside K (stream.logKey low)).run with
        | .ok none | .error _ => pure ()
        | .ok (some bytes) =>
          match Envelope.decodeAndVerify X stream low bytes with
          | none => pure ()
          | some envelope => advanceTailHint X K fuel ids stream low envelope

/-! ### Replay -/

/-- The walk so far: the events, and the position whose GET said absent. -/
structure Walked where
  events : List Envelope
  stoppedAtAbsent : Option UInt64

/-- What the answers of one chunk add to the events so far; a refusal ends the read. -/
def takeChunk (stream : StreamId) : List (UInt64 × Except KeyspaceError (Option Bytes)) → List Envelope →
    Except Replay Walked
  | [], events => .ok ⟨events, none⟩
  | (seq, .ok (some bytes)) :: rest, events =>
    match Envelope.decodeAndVerify X stream seq bytes with
    | some envelope => takeChunk stream rest (events ++ [envelope])
    | none => .error (.corrupt [seq])
  | (seq, .ok none) :: _, events => .ok ⟨events, some seq⟩
  | (_, .error _) :: _, _ => .error (.unavailable "read: fetch")

/-- The walk of `read`: every round but the last adds an event, so `limit` rounds are enough. -/
def readLoop (stream : StreamId) (limit : ℕ) : ℕ → List Envelope → UInt64 → Quiet (Except Replay Walked)
  | 0, events, _ => pure (.ok ⟨events, none⟩)
  | rounds + 1, events, chunkStart => do
    let chunk := chunkFrom (min fetchParallelism (limit - events.length)) chunkStart
    let results ← getChunk X K stream chunk
    match takeChunk X stream (chunk.zip results) events with
    | .error replay => pure (.error replay)
    | .ok ⟨events, some absent⟩ => pure (.ok ⟨events, some absent⟩)
    | .ok ⟨events, none⟩ =>
      if limit ≤ events.length then pure (.ok ⟨events, none⟩)
      else match chunk.getLast?.bind checkedSucc with
        | none => pure (.ok ⟨events, none⟩)
        | some next => readLoop stream limit rounds events next

/-- How `read` ends when the probe named a later key. -/
def readSuffix (stream : StreamId) (walked : Walked) (next : UInt64) : Quiet Replay :=
  match walked.stoppedAtAbsent with
  | some absent =>
    if next = absent then pure (.backendUnqualified "LIST contradicts GET" [absent])
    else pure (.corrupt (seqRange absent next))
  | none =>
    match walked.events.getLast? with
    | none => .stop -- `expect("events nonempty")`
    | some last =>
      if last.seq < next then do
        if (← verifiedTailHint X K stream).isNone then recoverTailHint X K fuel ids stream last.seq
        pure (.page walked.events false)
      else pure (.backendUnqualified "LIST probe contradicted the fetched page" [])

/-- Repair the hint, then return the page. -/
def readHealed (stream : StreamId) (afterSeq : UInt64) (walked : Walked) (endSeq : UInt64) (endWitnessed : Bool) :
    Quiet Replay := do
  if endWitnessed then healTailHint X K fuel ids stream afterSeq walked.events.getLast?
  else recoverTailHint X K fuel ids stream endSeq
  if walked.events = [] then pure .empty else pure (.page walked.events endWitnessed)

/-- How `read` ends when the probe named no later key. -/
def readEnd (stream : StreamId) (afterSeq : UInt64) (walked : Walked) (endSeq : UInt64) : Quiet Replay := do
  let verified ← verifiedTailHint X K stream
  match verified.bind fun hint => if endSeq < hint.highestValidatedDenseSeq then some hint.highestValidatedDenseSeq else none with
  | some beyond => pure (.backendUnqualified "stale LIST: verified hint exceeds the qualified end" [beyond, endSeq])
  | none =>
    let endWitnessed := verified.any (·.highestValidatedDenseSeq = endSeq)
    -- the hint may predate a later append, so a page that was only cut by its limit looks at the next position
    if endWitnessed ∧ walked.stoppedAtAbsent = none ∧ endSeq < maxSeq then
      match ← (get X.toOutside K (stream.logKey (endSeq + 1))).run with
      | .ok (some bytes) =>
        match Envelope.decodeAndVerify X stream (endSeq + 1) bytes with
        | some _ => pure (.backendUnqualified "LIST omitted GET-visible successor" [endSeq + 1])
        | none => pure (.corrupt [endSeq + 1])
      | .ok none => readHealed X K fuel ids stream afterSeq walked endSeq endWitnessed
      | .error _ => pure (.unavailable "read: terminal successor")
    else readHealed X K fuel ids stream afterSeq walked endSeq endWitnessed

/-- `read` from its floor lookup on. -/
def readFrom (stream : StreamId) (afterSeq : UInt64) (limit : ℕ) : Quiet Replay := do
  match ← (Keyspace.trimFloor K fuel stream.value).run with
  | .error _ => pure (.unavailable "read: trim floor")
  | .ok floor =>
    match floor.bind fun firstRetained => if afterSeq + 1 < firstRetained then some firstRetained else none with
    | some firstRetained => pure (.offsetExpired firstRetained)
    | none =>
      match ← readLoop X K stream limit limit [] (afterSeq + 1) with
      | .error replay => pure replay
      | .ok walked =>
        let endSeq := (walked.events.getLast?.map (·.seq)).getD afterSeq
        match ← (nextLogKeyAfter K stream endSeq).run with
        | .error _ => pure (.backendUnqualified "completeness LIST probe failed" [])
        | .ok (some next) => readSuffix X K fuel ids stream walked next
        | .ok none => readEnd X K fuel ids stream afterSeq walked endSeq

/-- `read`. -/
def read (stream : StreamId) (afterSeq : UInt64) (limit : ℕ) : Quiet Replay := do
  if limit = 0 then pure (.backendUnqualified "read called with limit 0" [])
  else match ← (get X.toOutside K (stream.logKey 0)).run with
    | .ok none => pure (.notFound stream)
    | .error _ => pure (.unavailable "read: genesis")
    | .ok (some genesis) =>
      match Envelope.decodeAndVerify X stream 0 genesis with
      | none => pure (.corrupt [0])
      | some _ => if afterSeq = maxSeq then pure .empty else readFrom X K fuel ids stream afterSeq limit

/-! ### Strict reads -/

/-- `strict_fetch`. -/
def strictFetch (stream : StreamId) (seq : UInt64) (operation : String) : StreamOp (Option Envelope) := do
  match ← mapErr (mapEventReadError stream seq operation) (get X.toOutside K (stream.logKey seq)) with
  | none => pure none
  | some bytes => some <$> check (verify X stream seq bytes)

/-- `strict_genesis`. -/
def strictGenesis (stream : StreamId) (operation : String) : StreamOp Envelope := do
  match ← strictFetch X K stream 0 operation with
  | some envelope => pure envelope
  | none => throw (.streamNotFound stream)

/-- `strict_floor`. -/
def strictFloor (stream : StreamId) (operation : String) : StreamOp (Option UInt64) :=
  mapErr (mapKeyspace operation) (Keyspace.trimFloor K fuel stream.value)

/-- The retention boundary of a strict read that begins at `seq`. -/
def refuseExpired (stream : StreamId) (seq : UInt64) : Option UInt64 → Except StreamsError Unit
  | some firstRetained => if seq < firstRetained then .error (.offsetExpired stream firstRetained) else .ok ()
  | none => .ok ()

/-- `read_event`. -/
def readEvent (stream : StreamId) (seq : UInt64) : StreamOp Envelope := do
  check (validateSegment "stream id" stream.value)
  let genesis ← strictGenesis X K stream "read_event: genesis"
  if seq = 0 then pure genesis
  else do
    check (refuseExpired stream seq (← strictFloor K fuel stream "read_event: trim floor"))
    match ← strictFetch X K stream seq "read_event: fetch" with
    | some envelope => pure envelope
    | none => throw (.eventMissing stream seq)

/-- The answers of one chunk of a strict read. -/
def strictChunk (stream : StreamId) : List UInt64 → Quiet (List (Except StreamsError (Option Envelope)))
  | [] => pure []
  | seq :: seqs => do
    let result ← (strictFetch X K stream seq "read_range: fetch").run
    let results ← strictChunk stream seqs
    pure (result :: results)

/-- The events of a chunk, or its lowest boundary or damage. -/
def takeStrict (stream : StreamId) : List (UInt64 × Except StreamsError (Option Envelope)) →
    Except StreamsError (List Envelope)
  | [] => .ok []
  | (_, .ok (some envelope)) :: rest => (takeStrict stream rest).map (envelope :: ·)
  | (seq, .ok none) :: _ => .error (.eventMissing stream seq)
  | (_, .error err) :: _ => .error err

/-- The walk of `read_range` over the `left` positions from `next` on. -/
def rangeLoop (stream : StreamId) : ℕ → ℕ → UInt64 → StreamOp (List Envelope)
  | 0, _, _ => pure []
  | _, 0, _ => pure []
  | rounds + 1, left + 1, next => do
    let chunk := chunkFrom (min fetchParallelism (left + 1)) next
    let events ← check (takeStrict stream (chunk.zip (← ExceptT.lift (strictChunk X K stream chunk))))
    match chunk.getLast?.bind checkedSucc with
    | none => pure events
    | some later => do
      let rest ← rangeLoop stream rounds (left + 1 - chunk.length) later
      pure (events ++ rest)

/-- `read_range`. -/
def readRange (stream : StreamId) (afterSeq throughSeq : UInt64) (limit : ℕ) : StreamOp RangePage := do
  check (validateSegment "stream id" stream.value)
  if limit = 0 then throw (.invalidArgument .rangeLimit)
  else if throughSeq ≤ afterSeq then throw (.invalidArgument (.rangeEmpty afterSeq throughSeq))
  else do
    let _ ← strictGenesis X K stream "read_range: genesis"
    check (refuseExpired stream (afterSeq + 1) (← strictFloor K fuel stream "read_range: trim floor"))
    let wanted := min (throughSeq.toNat - afterSeq.toNat) limit
    let events ← rangeLoop X K stream wanted wanted (afterSeq + 1)
    pure ⟨events, events.getLast?.any (·.seq = throughSeq)⟩

/-! ### Cursors -/

/-- The floor that explains why the event at `seq` is absent, if one does. -/
def floorBeyond (stream : StreamId) (seq : UInt64) : Quiet (Option UInt64) := do
  match ← (trimFloor K fuel stream).run with
  | .ok (some firstRetained) => pure (if seq < firstRetained then some firstRetained else none)
  | .ok none | .error _ => pure none

/-- The checks of a stored cursor that need no event. -/
def parseCursor (stream : StreamId) (consumer : Str) (bytes : Bytes) : Except StreamsError Cursor :=
  match X.cursor.fromSlice bytes with
  | none => .error (.cursorCorrupt stream consumer "payload is malformed")
  | some cursor =>
    if cursor.formatVersion ≠ envelopeFormatVersion then
      .error (.cursorCorrupt stream consumer "format version is unsupported")
    else if cursor.streamId ≠ stream then .error (.cursorCorrupt stream consumer "stream id does not match its key")
    else if cursor.seq = 0 then .error (.cursorCorrupt stream consumer "seq does not name an event")
    else .ok cursor

/-- `decode_and_verify_cursor`. -/
def decodeAndVerifyCursor (stream : StreamId) (consumer : Str) (bytes : Bytes) (eventOperation : String) :
    StreamOp Cursor := do
  let cursor ← check (parseCursor X stream consumer bytes)
  match ← mapErr (mapKeyspace eventOperation) (get X.toOutside K (stream.logKey cursor.seq)) with
  | none =>
    match ← ExceptT.lift (floorBeyond K fuel stream cursor.seq) with
    | some firstRetained => throw (.offsetExpired stream firstRetained)
    | none => throw (.cursorCorrupt stream consumer "referenced event is absent")
  | some event =>
    match Envelope.decodeAndVerify X stream cursor.seq event with
    | none => throw (.cursorCorrupt stream consumer "referenced event is corrupt")
    | some envelope =>
      if cursor.eventId ≠ envelope.stableEventId.value then
        throw (.cursorCorrupt stream consumer "event id does not match the referenced event")
      else pure cursor

/-- `read_cursor`. -/
def readCursor (stream : StreamId) (consumer : Str) : StreamOp (Option Cursor) := do
  let key ← check (stream.cursorKey consumer)
  match ← mapErr (mapKeyspace "read_cursor") (get X.toOutside K key) with
  | none => pure none
  | some bytes => some <$> decodeAndVerifyCursor X K fuel stream consumer bytes "read_cursor: event"

/-- The position an advance starts from: one whose event was swept keeps its number. -/
def currentCursor (stream : StreamId) (consumer : Str) (bytes : Bytes) : StreamOp Cursor := do
  match ← Op.attempt (decodeAndVerifyCursor X K fuel stream consumer bytes "advance_cursor: current event") with
  | .ok cursor => pure cursor
  | .error (.offsetExpired _ _) =>
    match X.cursor.fromSlice bytes with
    | none => throw (.cursorCorrupt stream consumer "payload is malformed")
    | some cursor =>
      if cursor.formatVersion ≠ envelopeFormatVersion ∨ cursor.streamId ≠ stream ∨ cursor.seq = 0 then
        throw (.cursorCorrupt stream consumer "payload is malformed")
      else pure cursor
  | .error err => throw err

/-- The loop of `advance_cursor`. -/
def advanceLoop (stream : StreamId) (consumer key : Str) (desired : Cursor) : ℕ → StreamOp Cursor
  | 0 => Op.stop
  | tries + 1 => do
    match ← Op.attempt (getWithEtag X.toOutside K key) with
    | .error _ => throw (.unavailable "advance_cursor: read")
    | .ok none =>
      match ← Op.attempt (create X.toOutside K fuel key (X.cursor.toVec desired) ids) with
      | .ok () => pure desired
      | .error (.alreadyExists _) => advanceLoop stream consumer key desired tries
      | .error err => throw (mapKeyspace "advance_cursor: create" err)
    | .ok (some (bytes, etag)) => do
      let current ← currentCursor X K fuel stream consumer bytes
      if desired.seq < current.seq then throw (.cursorNotMonotonic stream current.seq desired.seq)
      else if current.seq = desired.seq then pure current
      else match ← Op.attempt (compareExchange X.toOutside K fuel key etag (X.cursor.toVec desired) (ids 0)) with
        | .ok _ => pure desired
        | .error (.preconditionFailed _ _ _ _ _) => advanceLoop stream consumer key desired tries
        | .error err => throw (mapKeyspace "advance_cursor: cas" err)

/-- The event a cursor is to be moved to. -/
def cursorTarget (stream : StreamId) (targetSeq : UInt64) : StreamOp Str := do
  match ← mapErr (mapKeyspace "advance_cursor: target") (get X.toOutside K (stream.logKey targetSeq)) with
  | some bytes => do
    let envelope ← check (verify X stream targetSeq bytes)
    pure envelope.stableEventId.value
  | none =>
    match ← ExceptT.lift (floorBeyond K fuel stream targetSeq) with
    | some firstRetained => throw (.offsetExpired stream firstRetained)
    | none => throw (.eventMissing stream targetSeq)

/-- `advance_cursor`. -/
def advanceCursor (stream : StreamId) (consumer : Str) (targetSeq : UInt64) : StreamOp Cursor := do
  if targetSeq = 0 then throw (.invalidArgument .cursorTarget)
  else do
    let eventId ← cursorTarget X K fuel stream targetSeq
    let key ← check (stream.cursorKey consumer)
    advanceLoop X K fuel ids stream consumer key ⟨envelopeFormatVersion, stream, targetSeq, eventId⟩ fuel

end YeetzS3.Streams
