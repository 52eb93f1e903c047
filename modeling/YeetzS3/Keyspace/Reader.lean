import YeetzS3.Keyspace.Codec

/-!
# The stream reader

`ValueReader` of `value_stream.rs`: an open binds a control and a window of its value, and every poll puts some bytes of the
window into the caller's buffer. A chunked value is fetched a few chunks at a time; the fetches of a poll complete in an order
its environment chooses, and a chunk that arrives early waits in `ready`.
-/

namespace YeetzS3.Keyspace

open Conc

/-- `MAX_IN_FLIGHT_CHUNKS`. -/
def maxInFlightChunks : ℕ := 4

/-- `ValueRepresentation`. -/
inductive ValueRepresentation where
  | inline
  | chunked
deriving DecidableEq

/-- `ValueMetadata`. -/
structure ValueMetadata where
  logicalLen : ℕ
  etag : Etag
  valueRootSha256 : Option Bytes
  representation : ValueRepresentation
deriving DecidableEq

/-- `ChunkReader`. A fetch in flight is its ordinal. -/
structure ChunkReader where
  key : Str
  incarnation : UInt64
  version : UInt64
  entries : List ManifestEntry
  nextFetch : ℕ
  lastFetch : ℕ
  inFlight : List ℕ := []
  ready : AList fun _ : ℕ => Bytes := ∅
  current : Option (Bytes × ℕ) := none
  currentOrdinal : ℕ

/-- `ReaderSource`. -/
inductive ReaderSource where
  | inline (payload : Bytes)
  | chunked (reader : ChunkReader)

/-- `ValueReader`. -/
structure ValueReader where
  metadata : ValueMetadata
  chunkDigests : List Bytes
  source : ReaderSource
  position : ℕ
  stop : ℕ

/-- What a poll returns: `Ready(Ok(()))` with the bytes it put into the buffer, `Ready(Err(..))` or `Pending`. -/
inductive Polled where
  | ready (out : Bytes)
  | error (e : KeyspaceError)
  | pending
deriving DecidableEq

/-! ### Polling -/

section
variable (O : Outside)

/-- What `fetch_chunk` makes of the store's answer. -/
def fetchedChunk (key : Str) (entry : ManifestEntry) (ordinal : ℕ) :
    Except StoreError (Bytes × Option Etag) → Except KeyspaceError Bytes
  | .ok (bytes, _) =>
    if bytes.length ≠ entry.encodedLen ∨ O.sha256 bytes ≠ entry.sha256 then .error (.chunkIntegrity key ordinal)
    else .ok bytes
  | .error .notFound => .error (.chunkMissing key ordinal)
  | .error _ => .error (.unavailable "keyspace chunk fetch")

/-- How the fetch of a chunk ends when the store answers it so. Every ordinal that is fetched has an entry. -/
def ChunkReader.fetched (r : ChunkReader) (answers : ℕ → Except StoreError (Bytes × Option Etag)) (ordinal : ℕ) :
    Except KeyspaceError Bytes :=
  match r.entries[ordinal]? with
  | some entry => fetchedChunk O r.key entry ordinal (answers ordinal)
  | none => .error (.chunkMissing r.key ordinal)

end

/-- The loop of `poll_chunked` that keeps the window full, at most `n` turns of it. -/
def ChunkReader.refill : ℕ → ChunkReader → ChunkReader
  | 0, r => r
  | n + 1, r =>
    if r.nextFetch < r.lastFetch ∧ r.inFlight.length < maxInFlightChunks then
      refill n { r with inFlight := r.inFlight ++ [r.nextFetch], nextFetch := r.nextFetch + 1 }
    else r

/-- Put `count` bytes of the chunk in order, from `start` on, into the buffer. -/
def ChunkReader.yield (r : ChunkReader) (chunk : Bytes) (start count position : ℕ) : Polled × ChunkReader × ℕ :=
  (.ready (slice chunk start count),
    if start + count < chunk.length then { r with current := some (chunk, start + count) }
    else { r with current := none, currentOrdinal := r.currentOrdinal + 1 },
    position + count)

/-- The second loop of `poll_chunked`, `n` turns of it: the next chunk in order is taken out of `ready` or waited for. The
fetches named in `order` complete meanwhile, in this order; every turn takes a chunk out of `ready` or a fetch out of `order`.
Chunks are `size` bytes long. -/
def ChunkReader.nextChunk (size : ℕ) (fetched : ℕ → Except KeyspaceError Bytes) (room window : ℕ) :
    ℕ → List ℕ → ChunkReader → ℕ → Polled × ChunkReader × ℕ
  | 0, _, r, position => (.pending, r, position)
  | n + 1, order, r, position =>
    match r.ready.lookup r.currentOrdinal with
    | some chunk =>
      let start := position - r.currentOrdinal * size
      let count := min (min (chunk.length - start) room) window
      let r := { r with ready := r.ready.erase r.currentOrdinal }
      if count = 0 then nextChunk size fetched room window n order { r with currentOrdinal := r.currentOrdinal + 1 } position
      else r.yield chunk start count position
    | none =>
      -- an empty set of fetches is the end of the window
      if r.inFlight = [] then (.ready [], r, position)
      else match order with
        | [] => (.pending, r, position)
        | ordinal :: order =>
          if ordinal ∈ r.inFlight then
            match fetched ordinal with
            | .ok chunk => nextChunk size fetched room window n order
                { r with inFlight := r.inFlight.erase ordinal, ready := r.ready.insert ordinal chunk } position
            | .error e => (.error e, { r with inFlight := r.inFlight.erase ordinal }, position)
          else nextChunk size fetched room window n order r position

/-- `poll_chunked`. -/
def ChunkReader.poll (size : ℕ) (r : ChunkReader) (fetched : ℕ → Except KeyspaceError Bytes) (room : ℕ) (order : List ℕ)
    (position stop : ℕ) : Polled × ChunkReader × ℕ :=
  let r := r.refill maxInFlightChunks
  let window := stop - position
  match r.current with
  | some (chunk, offset) =>
    let start := min offset chunk.length
    let count := min (start + min room window) chunk.length - start
    if count = 0 then (.ready [], { r with current := none, currentOrdinal := r.currentOrdinal + 1 }, position)
    else r.yield chunk start count position
  | none => r.nextChunk size fetched room window (r.ready.entries.length + order.length + 1) order position

/-- One call of `poll_read`: the room in the buffer, and the fetches that complete during it. -/
structure Poll where
  room : ℕ
  order : List ℕ

/-- `poll_read`. -/
def ValueReader.poll (O : Outside) (r : ValueReader) (answers : ℕ → Except StoreError (Bytes × Option Etag)) (p : Poll) :
    Polled × ValueReader :=
  if r.stop ≤ r.position ∨ p.room = 0 then (.ready [], r)
  else match r.source with
    | .inline payload =>
      let count := min (min r.stop payload.length - r.position) p.room
      (.ready (slice payload r.position count), { r with position := r.position + count })
    | .chunked reader =>
      let (polled, reader, position) := reader.poll chunkBytes (reader.fetched O answers) p.room p.order r.position r.stop
      (polled, { r with source := .chunked reader, position := position })

/-- A run of polls: what they return, and the reader after them. -/
def ValueReader.polls (O : Outside) (answers : ℕ → Except StoreError (Bytes × Option Etag)) :
    List Poll → ValueReader → List Polled × ValueReader
  | [], r => ([], r)
  | p :: ps, r =>
    let (polled, r) := r.poll O answers p
    let (rest, r) := polls O answers ps r
    (polled :: rest, r)

/-! ### Opening -/

variable (O : Outside) (K : AtomicKeyspace)

/-- The reader of a control: its metadata, its source, its digests and its window. -/
def ValueReader.of (key : Str) (etag : Etag) (control : ControlEnvelope) (range : Option (ℕ × ℕ)) :
    Except KeyspaceError ValueReader :=
  let logicalLen := match control with
    | .inline envelope => envelope.payload.length
    | .chunked manifest => manifest.logicalLen
  let (start, stop) := range.getD (0, logicalLen)
  if range.isSome ∧ (stop < start ∨ logicalLen < stop) then .error (.invalidRange key start stop logicalLen)
  else match control with
    | .inline envelope => .ok ⟨⟨logicalLen, etag, none, .inline⟩, [], .inline envelope.payload, start, stop⟩
    | .chunked manifest =>
      -- only the complete chunks that intersect the window are fetched
      let first := min (start / chunkBytes) 4294967295
      let lastExclusive := if stop = 0 then 0 else min ((stop - 1) / chunkBytes + 1) manifest.entries.length
      let reader : ChunkReader := {
        key := key
        incarnation := manifest.incarnation
        version := manifest.version
        entries := manifest.entries
        nextFetch := first
        lastFetch := lastExclusive
        currentOrdinal := first }
      .ok ⟨⟨logicalLen, etag, some manifest.valueRootSha256, .chunked⟩, manifest.entries.map (·.sha256), .chunked reader, start, stop⟩

/-- `open_stream_window`. -/
def ValueReader.openStreamWindow (key : Str) (range : Option (ℕ × ℕ)) : KeyOp (Option ValueReader) := do
  match ← Keyspace.openStream O K key with
  | some (control, etag) => some <$> check (ValueReader.of key etag control range)
  | none => pure none

/-- `open_stream`. -/
def ValueReader.openStream (key : Str) : KeyOp (Option ValueReader) := openStreamWindow O K key none

/-- `open_stream_range`. -/
def ValueReader.openStreamRange (key : Str) (start stop : ℕ) : KeyOp (Option ValueReader) := do
  if stop < start then
    let reader ← openStream O K key
    throw (.invalidRange key start stop (reader.elim 0 (·.metadata.logicalLen)))
  else openStreamWindow O K key (some (start, stop))

end YeetzS3.Keyspace
