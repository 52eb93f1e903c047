import YeetzS3.Keyspace.Safety

/-!
# One key and its clients

The system of any number of clients that create, replace, destroy and read one key, request by request.
`returned` is what the safety of the single operations adds up to: in every reachable world the
invariant holds, and every call that has returned left behind what `Returned` says.
-/

namespace YeetzS3.Keyspace

open Conc Slots

/-- The calls on one key. A streamed write is one call from begin to commit. -/
inductive KeyCall where
  | create (value : Bytes) (commitIds : ℕ → Bytes)
  | compareExchange (expectedEtag : Etag) (value commitId : Bytes)
  | streamCreate (bufs : List Bytes) (commitId : Bytes)
  | streamCompareExchange (expectedEtag : Etag) (bufs : List Bytes) (commitId : Bytes)
  | destroy (cause actor : Str) (ts : UInt64)
  | readState
  | readStateStream
  | get
  | getWithEtag

namespace KeyCall

/-- What a call returns when it succeeds. -/
abbrev Val : KeyCall → Type
  | create _ _ => Unit
  | compareExchange _ _ _ => Etag
  | streamCreate _ _ => CommitReceipt
  | streamCompareExchange _ _ _ => CommitReceipt
  | destroy _ _ _ => Unit
  | readState => KeyState
  | readStateStream => StreamKeyState
  | get => Option Bytes
  | getWithEtag => Option (Bytes × Etag)

/-- What a call returns. -/
abbrev Res (c : KeyCall) : Type := Except KeyspaceError c.Val

/-- The program of a call. -/
def prog (O : Outside) (K : AtomicKeyspace) (fuel : ℕ) (key : Str) : (c : KeyCall) → Prog Req Resp c.Res
  | create value commitIds => (Keyspace.create O K fuel key value commitIds).run
  | compareExchange expectedEtag value commitId => (Keyspace.compareExchange O K fuel key expectedEtag value commitId).run
  | streamCreate bufs commitId => (Keyspace.streamCreate O K fuel key bufs commitId).run
  | streamCompareExchange expectedEtag bufs commitId =>
    (Keyspace.streamCompareExchange O K fuel key expectedEtag bufs commitId).run
  | destroy cause actor ts => (Keyspace.destroy O K key cause actor ts).run
  | readState => (Keyspace.readState O K fuel key).run
  | readStateStream => (Keyspace.readStateStream O K fuel key).run
  | get => (Keyspace.get O K key).run
  | getWithEtag => (Keyspace.getWithEtag O K key).run

/-- The condition of the put a write makes: nothing there, or the etag it presents. -/
def presents : KeyCall → Option (Option Etag)
  | create _ _ => some none
  | streamCreate _ _ => some none
  | compareExchange expectedEtag _ _ => some (some expectedEtag)
  | streamCompareExchange expectedEtag _ _ => some (some expectedEtag)
  | destroy _ _ _ | readState | readStateStream | get | getWithEtag => none

/-- The call is an existence read that found the key never to have existed. -/
def SaysAbsent : (c : KeyCall) → c.Res → Prop
  | readState, r => r = .ok .absent
  | readStateStream, r => r = .ok .absent
  | create _ _, _ | compareExchange _ _ _, _ | streamCreate _ _, _ | streamCompareExchange _ _ _, _
  | destroy _ _ _, _ | get, _ | getWithEtag, _ => False

end KeyCall

variable (O : Outside) {K : AtomicKeyspace} (fuel : ℕ) (key : Key K) (B : Backend)

/-- The clients of one key, before anything was written at it. -/
def keySystem : System Store Req Resp KeyCall KeyCall.Res where
  prog := KeyCall.prog O K fuel key.name
  exec := B.exec
  init s := s.Tagged B ∧ key.slots.object s = none ∧ ¬ key.slots.Counted s

/-- What a call leaves behind when it returns. -/
structure Returned (t : ℕ) (c : KeyCall) (res : c.Res) (h : History KeyCall KeyCall.Res) : Prop where
  settled : key.slots.Calm B → key.slots.Settled lifetimes t h
  closed : key.slots.Calm B → key.slots.Closed t h
  acked : ∀ cond, c.presents = some cond → ∀ a, res = .ok a → ¬ B.faults → key.slots.Acked B lifetimes h t cond
  missed : c.SaysAbsent res → key.slots.Missed h t

variable {O fuel key B} {t : ℕ} {c : KeyCall} {res : c.Res} {h h' : History KeyCall KeyCall.Res}

/-- What a call left behind stays. -/
theorem Returned.wait (hr : Returned key B t c res h) (hh : Rely (key.slots.Inv B lifetimes) t h h') :
    Returned key B t c res h' where
  settled := Settled.steady.imp.wait _ _ hh hr.settled
  closed := Closed.steady.imp.wait _ _ hh hr.closed
  acked cond hc a ha := Acked.steady.imp.wait _ _ hh (hr.acked cond hc a ha)
  missed hm := (hr.missed hm).mono hh.le

/-! ### Every call is safe -/

theorem allowsWrites_noMove : key.AllowsWrites O key.slots.NoMove where
  reads := ⟨fun _ _ _ _ => nofun, fun _ _ _ _ _ _ => nofun, fun _ _ _ _ => nofun⟩
  chunk i v bytes d c h := (key.spare_chunk K.ns key.name i v (hashEntry O bytes).digestHex).2.1 (by rw [(Req.put.inj h).1])
  control d c d' c' h := key.slots.control_ne_counter (by rw [(Req.put.inj h).1])
  evict e _ _ := nofun

theorem allowsDestroy_noPublish : key.AllowsDestroy key.slots.NoPublish where
  reads := ⟨fun _ _ _ _ => nofun, fun _ _ _ _ _ _ => nofun, fun _ _ _ _ => nofun⟩
  tombstone d d' c' h := key.slots.control_ne_tombstone (by rw [(Req.put.inj h).1])
  counter d c d' c' h := key.slots.control_ne_counter (by rw [(Req.put.inj h).1])
  remove e _ _ := nofun

section
variable {Sys : System Store Req Resp KeyCall KeyCall.Res}

/-- A write leaves its publications settled and the counter where it is. -/
theorem safe_write {cond : Option Etag} {p : Prog Req Resp c.Res} (hc : c.presents = some cond)
    (hr : ∀ r, ¬ c.SaysAbsent r) (hn : key.slots.NoBump t h)
    (hp : Safe Sys (key.slots.Inv B lifetimes) t p (key.slots.Wrote B lifetimes (¬ B.faults) t cond) h)
    (he : p.Every key.slots.NoMove fun _ => True) :
    Safe Sys (key.slots.Inv B lifetimes) t p (Returned key B t c) h := by
  refine (hp.frame he (fun _ _ hr hn => hn.wait hr) (fun _ _ _ _ hr hn => NoBump.noMove hr hn) hn).imp ?_
  rintro r h' - - ⟨⟨hs, ha⟩, hn'⟩
  refine ⟨hs, fun _ => hn'.closed, fun cond' hc' a hr' => ?_, fun hm => absurd hm (hr r)⟩
  cases Option.some.inj (hc.symm.trans hc')
  exact ha a hr'

/-- A read changes nothing. -/
theorem safe_read {p : Prog Req Resp c.Res} {Q : c.Res → History KeyCall KeyCall.Res → Prop} (hc : c.presents = none)
    (hn : key.slots.NoBump t h) (hs : key.slots.Settled lifetimes t h)
    (hp : Safe Sys (key.slots.Inv B lifetimes) t p Q h) (hm : ∀ r h', Q r h' → c.SaysAbsent r → key.slots.Missed h' t)
    (he : p.Every key.slots.Spares fun _ => True) :
    Safe Sys (key.slots.Inv B lifetimes) t p (Returned key B t c) h := by
  refine (safe_frame he (NoBump.steady.and Settled.steady) ⟨hn, hs⟩ hp).imp ?_
  rintro r h' - - ⟨hq, hn', hs'⟩
  refine ⟨fun _ => hs', fun _ => hn'.closed, fun cond hc' => ?_, hm r h' hq⟩
  rw [hc] at hc'
  cases hc'

/-- Every call is safe from its start on. -/
theorem safe_prog (hx : ∀ s r x s', Sys.exec s r x s' → B.exec s r x s') (c : KeyCall)
    (hI : key.slots.Inv B lifetimes h) (ht : t < h.now) (hfresh : ∀ i r x, ¬ h.Asked i t r x) :
    Safe Sys (key.slots.Inv B lifetimes) t (c.prog O K fuel key.name) (Returned key B t c) h := by
  have hn : key.slots.NoBump t h := fun β d c y => hfresh β _ _
  have hs : key.slots.Settled lifetimes t h := fun ℓ d c y ha => absurd ha (hfresh ℓ _ _)
  have hread : ∀ {α : Type} {p : KeyOp α}, p.run.Every key.slots.Spares (fun _ => True) →
      Safe Sys (key.slots.Inv B lifetimes) t p.run (fun _ _ => True ∧ True) h := fun he =>
    safe_spares (X := fun _ => True) hx he (.of_mono fun _ _ _ => id) trivial
  cases c with
  | create value commitIds =>
    exact safe_write rfl (fun _ => id) hn (Key.safe_create O hx fuel value commitIds hI fun _ => hs)
      (Key.every_create O allowsWrites_noMove ..)
  | compareExchange expected value commitId =>
    exact safe_write rfl (fun _ => id) hn (Key.safe_compareExchange O hx fuel expected value commitId fun _ => hs)
      (Key.every_compareExchange O allowsWrites_noMove ..)
  | streamCreate bufs commitId =>
    exact safe_write rfl (fun _ => id) hn (Key.safe_streamCreate O hx fuel bufs commitId hI fun _ => hs)
      (Key.every_streamCreate O allowsWrites_noMove ..)
  | streamCompareExchange expected bufs commitId =>
    exact safe_write rfl (fun _ => id) hn (Key.safe_streamCompareExchange O hx fuel expected bufs commitId fun _ => hs)
      (Key.every_streamCompareExchange O allowsWrites_noMove ..)
  | destroy cause actor ts =>
    refine ((Key.safe_destroy O hx cause actor ts hfresh).frame (Key.every_destroy O allowsDestroy_noPublish cause actor ts)
      (fun _ _ hr hs => Settled.steady.wait _ _ hr hs) (fun _ _ _ _ hr hs => Settled.noPublish hr hs) hs).imp ?_
    rintro r h' - - ⟨hc, hs'⟩
    exact ⟨fun _ => hs', hc, nofun, False.elim⟩
  | readState =>
    exact safe_read rfl hn hs (Key.safe_readState O hx fuel hI ht) (fun _ _ hq => hq)
      (Key.every_readState O key.allowsReads ..)
  | readStateStream =>
    exact safe_read rfl hn hs (Key.safe_readStateStream O hx fuel hI ht) (fun _ _ hq => hq)
      (Key.every_readStateStream O key.allowsReads ..)
  | get =>
    have he := Key.every_get O (K := K) key.allowsReads key.name
    exact safe_read rfl hn hs (hread he) (fun _ _ _ => False.elim) he
  | getWithEtag =>
    have he := Key.every_getWithEtag O (K := K) key.allowsReads key.name
    exact safe_read rfl hn hs (hread he) (fun _ _ _ => False.elim) he

end

/-- In every reachable world the invariant holds, and what the returned calls left behind. -/
theorem returned {w : World Store Req Resp KeyCall KeyCall.Res} (hw : Reach (keySystem O fuel key B) w) :
    key.slots.Inv B lifetimes w.hist ∧
      ∀ i t c res, w.hist.Done i t c res → Returned key B t c res w.hist := by
  have hinit : ∀ s, (keySystem O fuel key B).init s → key.slots.Inv B lifetimes (.empty s : History KeyCall KeyCall.Res) := by
    rintro s ⟨ht, ho, hc⟩
    refine Kept.empty ⟨ht, fun o hco => absurd (by simp [Slots.Counted, hco]) hc, fun h => absurd h hc, fun _ v hv => ?_⟩
    rw [Slots.cell, ho] at hv
    cases hv
  have hstart : ∀ (h : History KeyCall KeyCall.Res) c, key.slots.Inv B lifetimes h →
      (∀ i e, h.At i e → e.label.caller ≠ some h.now) → key.slots.Inv B lifetimes (h.push (.start c) h.store) ∧
        Safe (keySystem O fuel key B) (key.slots.Inv B lifetimes) h.now ((keySystem O fuel key B).prog c)
          (Returned key B h.now c) (h.push (.start c) h.store) := by
    intro h c hI hfresh
    have hI' := hI.start (fun _ => Goes.refl _) c
    refine ⟨hI', safe_prog (fun _ _ _ _ => id) c hI' (by simp) ?_⟩
    rintro i r x ⟨e, he, hl⟩
    rcases Hist.at_push.1 he with he | ⟨-, rfl⟩
    · exact hfresh i e he (by rw [hl]; rfl)
    · cases hl
  have hdone : ∀ (h : History KeyCall KeyCall.Res) t c res, key.slots.Inv B lifetimes h → Returned key B t c res h →
      key.slots.Inv B lifetimes (h.push (.done t c res) h.store) :=
    fun h t c res hI _ => hI.done (fun _ => Goes.refl _) t c res
  obtain ⟨hI, -, hd⟩ := Reach.sound hinit hstart hdone hw
  refine ⟨hI, fun i t c res hres => ?_⟩
  obtain ⟨e, hi, he⟩ := hres
  obtain ⟨h, hr, -, hp⟩ := hd i e t c res hi he
  exact hp.wait hr

end YeetzS3.Keyspace
