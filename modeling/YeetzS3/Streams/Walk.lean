import YeetzS3.Keyspace.Settles
import YeetzS3.Streams.Space
import YeetzS3.Streams.Envelopes

/-!
# The walk of a read

Positions are counted as natural numbers here. `StreamId.Slice n events`: the events of a log from position `n` on, one by
one. The walk of `read` returns such a slice and says what stopped it (`ends_readLoop`).
-/

namespace YeetzS3.Streams

open Conc
open Keyspace (AtomicKeyspace seen Unserved)

variable (X : Crates) (K : AtomicKeyspace) (s : Store) (stream : StreamId)

/-- What a get of the event at `seq` returns when every request is answered. -/
def StreamId.found (seq : UInt64) : Except KeyspaceError (Option Bytes) := seen X.toOutside K s (stream.logKey seq)

/-- The event at position `n` is there and verified. -/
def StreamId.EventAt (n : ℕ) (envelope : Envelope) : Prop :=
  ∃ seq : UInt64, seq.toNat = n ∧ ∃ bytes, stream.found X K s seq = .ok (some bytes) ∧
    Envelope.decodeAndVerify X stream seq bytes = some envelope

/-- The events from position `n` on are these. -/
def StreamId.Slice : ℕ → List Envelope → Prop
  | _, [] => True
  | n, envelope :: events => stream.EventAt X K s n envelope ∧ StreamId.Slice (n + 1) events

section
variable {X K s stream} {n : ℕ} {a b : List Envelope} {envelope : Envelope}

theorem StreamId.EventAt.seq_eq (h : stream.EventAt X K s n envelope) : envelope.seq.toNat = n := by
  obtain ⟨seq, rfl, bytes, -, hd⟩ := h
  exact congrArg UInt64.toNat (Envelope.decodeAndVerify_bound hd).slot.2

theorem StreamId.slice_append : stream.Slice X K s n (a ++ b) ↔ stream.Slice X K s n a ∧ stream.Slice X K s (n + a.length) b := by
  induction a generalizing n with
  | nil => simp [StreamId.Slice]
  | cons e a ih =>
    rw [List.cons_append, StreamId.Slice, StreamId.Slice, ih, and_assoc, List.length_cons, Nat.add_assoc, Nat.add_comm 1]

theorem StreamId.slice_concat : stream.Slice X K s n (a ++ [envelope]) ↔
    stream.Slice X K s n a ∧ stream.EventAt X K s (n + a.length) envelope := by
  rw [StreamId.slice_append, StreamId.Slice, StreamId.Slice, and_true]

end

/-! ### Chunks -/

theorem toNat_lt_of_checkedSucc {seq : UInt64} : checkedSucc seq = none ↔ seq.toNat + 1 = 2 ^ 64 := by
  have := seq.toNat_lt
  unfold checkedSucc
  split
  · simp only [reduceCtorEq, false_iff]
    omega
  · simp only [true_iff]
    omega

/-- Where the walk goes on after a chunk: behind its last position, unless that is `u64::MAX`. -/
theorem chunkFrom_next (k : ℕ) (seq : UInt64) :
    ((chunkFrom (k + 1) seq).getLast?.bind checkedSucc).elim (seq.toNat + (chunkFrom (k + 1) seq).length = 2 ^ 64)
      fun next => next.toNat = seq.toNat + (chunkFrom (k + 1) seq).length := by
  induction k generalizing seq with
  | zero =>
    have hone : chunkFrom 1 seq = [seq] := by
      rw [chunkFrom]
      cases checkedSucc seq <;> rfl
    rw [hone, List.getLast?_singleton, Option.bind_some, List.length_singleton]
    cases hs : checkedSucc seq with
    | none => exact toNat_lt_of_checkedSucc.1 hs
    | some next => exact toNat_of_checkedSucc hs
  | succ k ih =>
    rw [chunkFrom]
    cases hs : checkedSucc seq with
    | none =>
      dsimp only
      rw [List.getLast?_singleton, Option.bind_some, List.length_singleton, hs]
      exact toNat_lt_of_checkedSucc.1 hs
    | some next =>
      have hnext := toNat_of_checkedSucc hs
      dsimp only
      rw [List.getLast?_cons, List.length_cons]
      have := ih next
      cases hl : (chunkFrom (k + 1) next).getLast? with
      | none => simp [chunkFrom] at hl
      | some last =>
        rw [hl, Option.bind_some, hnext] at this
        rw [Option.getD_some, Option.bind_some]
        cases hc : checkedSucc last with
        | none =>
          rw [hc, Option.elim_none] at this
          rw [Option.elim_none]
          omega
        | some later =>
          rw [hc, Option.elim_some] at this
          rw [Option.elim_some]
          omega

theorem length_chunkFrom_le (k : ℕ) (seq : UInt64) : (chunkFrom k seq).length ≤ k := by
  induction k generalizing seq with
  | zero => exact le_rfl
  | succ k ih =>
    rw [chunkFrom, List.length_cons]
    cases checkedSucc seq with
    | none => exact Nat.succ_le_succ (Nat.zero_le k)
    | some next => exact Nat.succ_le_succ (ih next)

/-! ### The walk -/

/-- What a walk over at most `limit` events from position `n` on returns. -/
inductive StreamId.Walks (X : Crates) (K : AtomicKeyspace) (B : Backend) (s : Store) (stream : StreamId) (limit n : ℕ) :
    Except Replay Walked → Prop where
  | whole {events : List Envelope} (he : stream.Slice X K s n events) (hl : events.length = limit ∨ n + events.length = 2 ^ 64) :
      Walks X K B s stream limit n (.ok ⟨events, none⟩)
  | absent {events : List Envelope} {q : UInt64} (he : stream.Slice X K s n events) (hl : events.length < limit)
      (hq : q.toNat = n + events.length) (ha : stream.found X K s q = .ok none) : Walks X K B s stream limit n (.ok ⟨events, some q⟩)
  | damaged {events : List Envelope} {q : UInt64} {bytes : Bytes} (he : stream.Slice X K s n events) (hl : events.length < limit)
      (hq : q.toNat = n + events.length) (hb : stream.found X K s q = .ok (some bytes))
      (hd : Envelope.decodeAndVerify X stream q bytes = none) : Walks X K B s stream limit n (.error (.corrupt [q]))
  | failed {events : List Envelope} {q : UInt64} (he : stream.Slice X K s n events) (hl : events.length < limit)
      (hq : q.toNat = n + events.length) (hf : B.faults ∨ ∃ e, stream.found X K s q = .error e) :
      Walks X K B s stream limit n (.error (.unavailable "read: fetch"))

section
variable {X : Crates} {K : AtomicKeyspace} {B : Backend} {s : Store} {stream : StreamId} {limit n k : ℕ} {events : List Envelope} {seq : UInt64}

/-- The answers to the gets of some positions. -/
def StreamId.Answered (X : Crates) (K : AtomicKeyspace) (B : Backend) (s : Store) (stream : StreamId) (seqs : List UInt64)
    (results : List (Except KeyspaceError (Option Bytes))) : Prop :=
  List.Forall₂ (fun seq result => InFull Unserved B (stream.found X K s seq) result) seqs results

theorem ends_getChunk (seqs : List UInt64) :
    (getChunk X K stream seqs).Ends B.exec (fun results t => t = s ∧ stream.Answered X K B s seqs results) s := by
  induction seqs with
  | nil => exact ⟨rfl, .nil⟩
  | cons seq seqs ih =>
    refine Prog.ends_bind.2 ((Keyspace.ends_get (stream.logKey seq)).imp ?_)
    rintro result t ⟨rfl, hr⟩
    refine Prog.ends_bind.2 (ih.imp ?_)
    rintro results t ⟨rfl, hrs⟩
    exact ⟨rfl, .cons hr hrs⟩

theorem takeChunk_walks {results : List (Except KeyspaceError (Option Bytes))} (hr : stream.Answered X K B s (chunkFrom k seq) results)
    (he : stream.Slice X K s n events) (hseq : seq.toNat = n + events.length) (hl : events.length + k ≤ limit) :
    (∃ events', takeChunk X stream ((chunkFrom k seq).zip results) events = .ok ⟨events', none⟩ ∧
      events'.length = events.length + (chunkFrom k seq).length ∧ stream.Slice X K s n events') ∨
    ((∀ events', takeChunk X stream ((chunkFrom k seq).zip results) events ≠ .ok ⟨events', none⟩) ∧
      stream.Walks X K B s limit n (takeChunk X stream ((chunkFrom k seq).zip results) events)) := by
  have hdone : ∀ {events results seqs}, stream.Slice X K s n events → stream.Answered X K B s seqs results → seqs = [] →
      ∃ events', takeChunk X stream (seqs.zip results) events = .ok ⟨events', none⟩ ∧
        events'.length = events.length + seqs.length ∧ stream.Slice X K s n events' := by
    rintro events results _ he - rfl
    exact ⟨events, rfl, rfl, he⟩
  induction k generalizing seq events results with
  | zero => exact .inl (hdone he hr rfl)
  | succ k ih =>
    have hlt : events.length < limit := by omega
    rw [chunkFrom] at hr ⊢
    obtain ⟨result, results, hres, hrest, rfl⟩ := List.forall₂_cons_left_iff.1 hr
    rw [List.zip_cons_cons]
    rcases hres with hres | ⟨hf, e, -, rfl⟩
    swap
    · exact .inr ⟨fun _ => nofun, .failed he hlt hseq (.inl hf)⟩
    cases hfound : stream.found X K s seq with
    | error e =>
      rw [hres, hfound]
      exact .inr ⟨fun _ => nofun, .failed he hlt hseq (.inr ⟨e, hfound⟩)⟩
    | ok found =>
      rw [hres, hfound]
      cases found with
      | none => exact .inr ⟨fun _ => nofun, .absent he hlt hseq hfound⟩
      | some bytes =>
        rw [takeChunk]
        cases hd : Envelope.decodeAndVerify X stream seq bytes with
        | none => exact .inr ⟨fun _ => nofun, .damaged he hlt hseq hfound hd⟩
        | some envelope =>
          have he' : stream.Slice X K s n (events ++ [envelope]) :=
            StreamId.slice_concat.2 ⟨he, seq, hseq, bytes, hfound, hd⟩
          have hlen : (events ++ [envelope]).length = events.length + 1 := by
            rw [List.length_append, List.length_singleton]
          dsimp only
          cases hs : checkedSucc seq with
          | none =>
            rw [hs] at hrest
            obtain ⟨events', h, hlen', hslice⟩ := hdone he' hrest rfl
            refine .inl ⟨events', h, ?_, hslice⟩
            rw [hlen', hlen, List.length_cons]
            omega
          | some next =>
            rw [hs] at hrest
            have hnext := toNat_of_checkedSucc hs
            dsimp only
            rcases ih hrest he' (by omega) (by omega) with ⟨events', h, hlen', hslice⟩ | h
            · refine .inl ⟨events', h, ?_, hslice⟩
              rw [hlen', hlen, List.length_cons]
              omega
            · exact .inr h

theorem ends_readLoop {rounds : ℕ} (he : stream.Slice X K s n events) (hseq : seq.toNat = n + events.length)
    (hl : events.length < limit) (hrounds : limit ≤ rounds + events.length) :
    (readLoop X K stream limit rounds events seq).Ends B.exec (fun r t => t = s ∧ stream.Walks X K B s limit n r) s := by
  induction rounds generalizing events seq with
  | zero => omega
  | succ rounds ih =>
    obtain ⟨k, hk⟩ : ∃ k, min fetchParallelism (limit - events.length) = k + 1 := by
      refine ⟨min fetchParallelism (limit - events.length) - 1, ?_⟩
      unfold fetchParallelism
      omega
    rw [readLoop, hk]
    refine Prog.ends_bind.2 ((ends_getChunk _).imp ?_)
    rintro results t ⟨rfl, hr⟩
    have hle : events.length + (k + 1) ≤ limit := by omega
    rcases takeChunk_walks hr he hseq hle with ⟨events', h, hlen, hslice⟩ | ⟨hne, hw⟩
    · rw [h]
      dsimp only
      split
      · next hfull =>
        have := length_chunkFrom_le (k + 1) seq
        exact ⟨rfl, .whole hslice (.inl (by omega))⟩
      next hmore =>
      have hgo := chunkFrom_next k seq
      cases hn : (chunkFrom (k + 1) seq).getLast?.bind checkedSucc with
      | none =>
        rw [hn, Option.elim_none] at hgo
        exact ⟨rfl, .whole hslice (.inr (by omega))⟩
      | some next =>
        rw [hn, Option.elim_some] at hgo
        have hpos : 0 < (chunkFrom (k + 1) seq).length := by
          rw [chunkFrom]
          exact Nat.succ_pos _
        exact ih hslice (by omega) (by omega) (by omega)
    · generalize takeChunk X stream ((chunkFrom (k + 1) seq).zip results) events = r at hne hw
      rcases r with replay | ⟨events', _ | q⟩
      · exact ⟨rfl, hw⟩
      · exact absurd rfl (hne events')
      · exact ⟨rfl, hw⟩

end

end YeetzS3.Streams
