import YeetzS3.Keyspace.Reader
import YeetzS3.Keyspace.Streamed
import YeetzS3.Conc.Task

/-!
# The stream writer, poll by poll

`ValueWriter` as an `AsyncWrite`: a poll takes what fits, starts an upload for every chunk it fills, and waits when enough
uploads are in flight. The uploads run among each other in any order and are handed out in any order once they have returned.
`Streamed` has the same writer with its polls and uploads one after the other.
-/

namespace YeetzS3.Keyspace

open Conc

variable (O : Outside) (K : AtomicKeyspace)

/-- An upload in flight: what is left of its `put_chunk`. -/
structure Upload where
  ordinal : ℕ
  rest : Prog Req Resp (Except KeyspaceError Unit)

/-- `ValueWriter`, between two polls. -/
structure PolledWriter extends ValueWriter where
  key : Str
  inFlight : List Upload := []
  error : Option KeyspaceError := none
  sealedUp : Bool := false

/-- The `io::Error` of a poll. -/
inductive WriteError where
  | other (error : KeyspaceError)
  | writerSealed
deriving DecidableEq

/-- What `poll_write` returns. -/
inductive WritePoll where
  | ready (accepted : ℕ)
  | error (error : WriteError)
  | pending
deriving DecidableEq

/-- The bytes of its buffer a poll took. -/
def WritePoll.taken (buf : Bytes) : WritePoll → Bytes
  | ready accepted => buf.take accepted
  | error _ => []
  | pending => []

namespace PolledWriter

/-- The upload that has returned under this ordinal. -/
def returned (uploads : List Upload) (ordinal : ℕ) : Option (Except KeyspaceError Unit) :=
  match uploads.find? (·.ordinal = ordinal) with
  | some ⟨_, .ret result⟩ => some result
  | _ => none

/-- `in_flight.poll_next` as long as `busy` of what is in flight: the uploads that are handed out during a poll are those of
`ready`, in its order. `none` once it is not busy any more, and else what the poll returns. -/
def pollUploads (busy : List Upload → Bool) : List ℕ → PolledWriter → Option WritePoll × PolledWriter
  | ready, w =>
    if busy w.inFlight = false then (none, w)
    else match ready with
      | [] => (some .pending, w)
      | ordinal :: ready =>
        match returned w.inFlight ordinal with
        | some (.ok ()) => pollUploads busy ready { w with inFlight := w.inFlight.eraseP (·.ordinal = ordinal) }
        | some (.error e) =>
          (some (.error (.other e)), { w with inFlight := w.inFlight.eraseP (·.ordinal = ordinal), error := some e })
        | none => pollUploads busy ready w

/-- `start_chunk_upload`. -/
def startChunkUpload (w : PolledWriter) : PolledWriter :=
  let entry := hashEntry O w.buffer
  { w with
    buffer := []
    entries := w.entries ++ [entry]
    inFlight := w.inFlight ++ [⟨w.entries.length, (putChunk O
      (chunkObjectKey K.ns w.key w.incarnation w.version entry.digestHex) w.key entry w.entries.length w.buffer 4).run⟩] }

/-- The loop of `poll_write` that fills the buffer, with `consumed` bytes of the caller's taken. -/
def fill : ℕ → Bytes → ℕ → PolledWriter → ℕ × PolledWriter
  | 0, _, consumed, w => (consumed, w)
  | fuel + 1, buf, consumed, w =>
    if buf = [] then (consumed, w)
    else
      let taken := min (chunkBytes - w.buffer.length) buf.length
      let w := { w with buffer := w.buffer ++ buf.take taken, totalLen := w.totalLen + taken }
      if w.buffer.length = chunkBytes then
        let w := startChunkUpload O K w
        if maxInFlightChunks ≤ w.inFlight.length then (consumed + taken, w)
        else fill fuel (buf.drop taken) (consumed + taken) w
      else fill fuel (buf.drop taken) (consumed + taken) w

/-- `poll_write`. -/
def pollWrite (ready : List ℕ) (buf : Bytes) (w : PolledWriter) : WritePoll × PolledWriter :=
  match w.error with
  | some e => (.error (.other e), w)
  | none =>
    if w.sealedUp then (.error .writerSealed, w)
    else if buf = [] then (.ready 0, w)
    else if maxLogicalBytes < w.totalLen + buf.length then
      let e := KeyspaceError.valueTooLarge w.key (w.totalLen + buf.length) maxLogicalBytes
      (.error (.other e), { w with error := some e })
    else match pollUploads (maxInFlightChunks ≤ ·.length) ready w with
      | (some stopped, w) => (stopped, w)
      | (none, w) =>
        let (accepted, w) := fill O K buf.length buf 0 w
        (.ready accepted, w)

/-- `poll_flush`, `poll_shutdown`: nothing is accepted in it. -/
def pollFlush (ready : List ℕ) (w : PolledWriter) : WritePoll × PolledWriter :=
  match w.error with
  | some e => (.error (.other e), w)
  | none => match pollUploads (!·.isEmpty) ready w with
    | (some stopped, w) => (stopped, w)
    | (none, w) => (.ready 0, w)

end PolledWriter

/-- A writer that begins, bound to a generation. -/
def PolledWriter.fresh (key : Str) (incarnation version : UInt64) : PolledWriter :=
  { incarnation := incarnation, version := version, key := key }

/-! ### Runs -/

variable (B : Backend)

/-- An upload in flight asks its next request. -/
inductive UploadStep : PolledWriter × Store → PolledWriter × Store → Prop where
  | ask {w : PolledWriter} {s s' : Store} {l l' : List Upload} {ordinal : ℕ} {r : Req} {x : Resp r}
      {k : Resp r → Prog Req Resp (Except KeyspaceError Unit)} (hin : w.inFlight = l ++ ⟨ordinal, .call r k⟩ :: l')
      (hx : B.exec s r x s') : UploadStep (w, s) ({ w with inFlight := l ++ ⟨ordinal, k x⟩ :: l' }, s')

/-- A writer over the bucket while it is written: between polls, uploads go on. The bytes are those its polls took. -/
inductive WriteRun : PolledWriter × Store → Bytes → PolledWriter × Store → Prop where
  | nil {c : PolledWriter × Store} : WriteRun c [] c
  | upload {c c' c'' : PolledWriter × Store} {v : Bytes} (hu : UploadStep B c c') (hr : WriteRun c' v c'') : WriteRun c v c''
  | write {w : PolledWriter} {s : Store} {c : PolledWriter × Store} {v : Bytes} (ready : List ℕ) (buf : Bytes)
      (hr : WriteRun ((w.pollWrite O K ready buf).2, s) v c) :
      WriteRun (w, s) ((w.pollWrite O K ready buf).1.taken buf ++ v) c
  | flush {w : PolledWriter} {s : Store} {c : PolledWriter × Store} {v : Bytes} (ready : List ℕ)
      (hr : WriteRun ((w.pollFlush ready).2, s) v c) : WriteRun (w, s) v c

/-- `seal`: the uploads in flight go on until they are through, in any order, and then the tail is uploaded. -/
inductive SealRun (commitId : Bytes) : PolledWriter × Store → Except KeyspaceError ValueManifest → Store → Prop where
  | failed {w : PolledWriter} {s : Store} {e : KeyspaceError} (he : w.error = some e) : SealRun commitId (w, s) (.error e) s
  | upload {w w' : PolledWriter} {s s' t : Store} {r : Except KeyspaceError ValueManifest} (he : w.error = none)
      (hu : UploadStep B (w, s) (w', s')) (hr : SealRun commitId (w', s') r t) : SealRun commitId (w, s) r t
  | uploaded {w : PolledWriter} {s t : Store} {r : Except KeyspaceError ValueManifest} {l l' : List Upload} {ordinal : ℕ}
      (he : w.error = none) (hin : w.inFlight = l ++ ⟨ordinal, .ret (.ok ())⟩ :: l')
      (hr : SealRun commitId ({ w with inFlight := l ++ l' }, s) r t) : SealRun commitId (w, s) r t
  | uploadFailed {w : PolledWriter} {s : Store} {l l' : List Upload} {ordinal : ℕ} {e : KeyspaceError} (he : w.error = none)
      (hin : w.inFlight = l ++ ⟨ordinal, .ret (.error e)⟩ :: l') : SealRun commitId (w, s) (.error e) s
  | drained {w : PolledWriter} {s t : Store} {r : Except KeyspaceError ValueManifest} (he : w.error = none)
      (hin : w.inFlight = []) (hr : (sealValue O K w.key w.toValueWriter commitId).run.Runs B.exec s r t) :
      SealRun commitId (w, s) r t

end YeetzS3.Keyspace
