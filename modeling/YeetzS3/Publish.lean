import YeetzS3.Lifecycle

/-!
# Publications

A control is published by one conditional put between two reads of the counter. The rules here are for
the four moments of that: the put itself, the second read, the eviction of a publication whose lifetime
was found closed, and the deletion at the end of a destroy. What a call knows of its own publications is
`Published` and `Settled`; what it knows of its own bump is `Closed`.
-/

namespace YeetzS3

open Conc

variable {Call : Type} {Res : Call → Type}

namespace Slots

variable (S : Slots) (B : Backend) (L : Lifetimes Bytes)

/-- Requests do not fail, and a conditional delete names the control every other request names. -/
def Calm : Prop := ¬ B.faults ∧ S.control = pathFrom S.control

/-- The control that was there after step `ℓ` is no longer there, or was not at some time since. -/
def Changed (h : History Call Res) (ℓ : ℕ) : Prop :=
  ∃ k, ℓ < k ∧ k ≤ h.now ∧ S.object (h.storeAt k) ≠ S.object (h.storeAt (ℓ + 1))

/-- Call `t` read the counter after step `ℓ` and found the lifetime `d` is stamped with open. -/
def Seen (h : History Call Res) (t ℓ : ℕ) (d : Bytes) : Prop :=
  ∃ k n, ℓ < k ∧ S.ReadAt h t k n ∧ L.stamp d = n.toNat

/-- Every control call `t` published was seen in its open lifetime afterwards, or did not stay. -/
def Settled (t : ℕ) (h : History Call Res) : Prop :=
  ∀ ℓ d c y, h.Asked ℓ t (.put S.control d c) (.ok y) → S.Seen L h t ℓ d ∨ S.Changed h ℓ

/-- Every control call `t` published but the one of step `ℓ` is settled. -/
def SettledBut (t ℓ : ℕ) (h : History Call Res) : Prop :=
  ∀ ℓ' d c y, ℓ' ≠ ℓ → h.Asked ℓ' t (.put S.control d c) (.ok y) → S.Seen L h t ℓ' d ∨ S.Changed h ℓ'

/-- The last publication of call `t` is that of `d` at step `ℓ`, stamped with the lifetime `n` it had
read before, onto nothing or onto a control `d` may follow. -/
structure Published (h : History Call Res) (t ℓ : ℕ) (n : UInt64) (d : Bytes) (c : Option Etag) : Prop where
  asked : ∃ y, h.Asked ℓ t (.put S.control d c) (.ok y)
  last : ∀ ℓ' d' c' y, h.Asked ℓ' t (.put S.control d' c') (.ok y) → ℓ' ≤ ℓ
  opened : ∃ a, a < ℓ ∧ S.ReadAt h t a n
  stamp : L.stamp d = n.toNat
  next : ∀ e, c = some e → ∃ b, B.tags b e ∧ L.next b d

/-- The last publication of call `t`, made with condition `c`, was found in its open lifetime. -/
def Acked (h : History Call Res) (t : ℕ) (c : Option Etag) : Prop :=
  ∃ ℓ n d, S.Published B L h t ℓ n d c ∧ ∃ b, ℓ < b ∧ S.ReadAt h t b n

/-- Call `t` saw lifetime `n`, and later another. -/
def Stale (h : History Call Res) (t : ℕ) (n : UInt64) : Prop :=
  ∃ i j m, i ≤ j ∧ S.ReadAt h t i n ∧ S.ReadAt h t j m ∧ n ≠ m

/-- A control that call `t` had seen before it moved the counter was gone at some time after. -/
def Closed (t : ℕ) (h : History Call Res) : Prop :=
  ∀ β d c y, h.Asked β t (.put S.counter d c) (.ok y) → ∀ i b e, i < β →
    h.Asked i t (.get S.control) (.ok (b, some e)) →
    ∃ k, β < k ∧ k ≤ h.now ∧ ∀ o, S.object (h.storeAt k) = some o → o.etag ≠ e

/-- Since call `t` started, the control was not there at some time, nor the tombstone at some later time. -/
def Missed (h : History Call Res) (t : ℕ) : Prop :=
  ∃ i j, t < i ∧ i ≤ j ∧ j ≤ h.now ∧ S.object (h.storeAt i) = none ∧ ¬ S.Witnessed (h.storeAt j)

/-- A property of the history that others cannot undo, nor can requests that spare the three objects. -/
structure Steady (t : ℕ) (X : History Call Res → Prop) : Prop where
  wait : ∀ h h', Rely (S.Inv B L) t h h' → X h → X h'
  spare : ∀ h r x s, S.Spares r → X h → X (h.push (.ask t r x) s)

/-- A request that does not move the counter. -/
def NoMove (r : Req) : Prop := ∀ d c, r ≠ .put S.counter d c

/-- A request that does not publish a control. -/
def NoPublish (r : Req) : Prop := ∀ d c, r ≠ .put S.control d c

variable {S B L} {h h' : History Call Res} {t ℓ : ℕ} {n : UInt64} {d : Bytes} {c : Option Etag}

/-! ### What stays known -/

theorem Steady.of_mono {X : History Call Res → Prop} (hX : ∀ h h', h ≤ h' → X h → X h') : S.Steady B L t X where
  wait h h' hr := hX h h' hr.le
  spare h _ _ _ _ := hX h _ Hist.le_push

theorem Steady.and {X Y : History Call Res → Prop} (hX : S.Steady B L t X) (hY : S.Steady B L t Y) :
    S.Steady B L t fun h => X h ∧ Y h where
  wait h h' hr hh := ⟨hX.wait h h' hr hh.1, hY.wait h h' hr hh.2⟩
  spare h r x s hr hh := ⟨hX.spare h r x s hr hh.1, hY.spare h r x s hr hh.2⟩

theorem Steady.imp {X : History Call Res → Prop} {P : Prop} (hX : S.Steady B L t X) :
    S.Steady B L t fun h => P → X h where
  wait h h' hr hh hP := hX.wait h h' hr (hh hP)
  spare h r x s hr hh hP := hX.spare h r x s hr (hh hP)

/-- What holds for one reason or another, each of them steady. -/
theorem Steady.exists {ι : Type} {X : ι → History Call Res → Prop} (hX : ∀ i, S.Steady B L t (X i)) :
    S.Steady B L t fun h => ∃ i, X i h where
  wait h h' hr := fun ⟨i, hh⟩ => ⟨i, (hX i).wait h h' hr hh⟩
  spare h r x s hr := fun ⟨i, hh⟩ => ⟨i, (hX i).spare h r x s hr hh⟩

theorem Spares.ne_put {r : Req} (hr : S.Spares r) : r ≠ .put S.control d c ∧ r ≠ .put S.counter d c := by
  constructor
  · rintro rfl
    exact hr.1 rfl
  · rintro rfl
    exact hr.2.1 rfl

/-- A request that spares the three objects publishes nothing and moves no counter. -/
theorem Spares.asked_push {r : Req} {x : Resp r} {s : Store} {r' : Req} {x' : Resp r'} {i : ℕ} (hr : S.Spares r)
    (hr' : (∃ d c, r' = .put S.control d c) ∨ ∃ d c, r' = .put S.counter d c)
    (ha : (h.push (.ask t r x) s).Asked i t r' x') : h.Asked i t r' x' := by
  rcases Hist.asked_push.1 ha with ha | ⟨-, ha⟩
  · exact ha
  · simp only [Label.ask.injEq] at ha
    rcases hr' with ⟨d, c, rfl⟩ | ⟨d, c, rfl⟩
    · exact absurd ha.2.1 hr.ne_put.1
    · exact absurd ha.2.1 hr.ne_put.2

theorem NoBump.steady : S.Steady B L t (S.NoBump t : History Call Res → Prop) where
  wait _ _ hr hn := hn.wait hr
  spare _ _ _ _ hr hn β d c y ha := hn β d c y (hr.asked_push (.inr ⟨d, c, rfl⟩) ha)

theorem Changed.mono (hh : h ≤ h') (hc : S.Changed h ℓ) : S.Changed h' ℓ := by
  obtain ⟨k, hl, hk, hne⟩ := hc
  refine ⟨k, hl, hk.trans (Hist.now_le hh), ?_⟩
  rwa [Hist.storeAt_mono hh hk, Hist.storeAt_mono hh (by omega)]

theorem Seen.mono (hh : h ≤ h') (hs : S.Seen L h t ℓ d) : S.Seen L h' t ℓ d := by
  obtain ⟨k, n, hl, hr, ho⟩ := hs
  exact ⟨k, n, hl, hr.mono hh, ho⟩

theorem Stale.mono (hh : h ≤ h') (hs : S.Stale h t n) : S.Stale h' t n := by
  obtain ⟨i, j, m, hij, hi, hj, hne⟩ := hs
  exact ⟨i, j, m, hij, hi.mono hh, hj.mono hh, hne⟩

theorem Settled.steady : S.Steady B L t (S.Settled L t : History Call Res → Prop) where
  wait _ _ hr hs ℓ d c y ha := (hs ℓ d c y (hr.asked ha)).imp (·.mono hr.le) (·.mono hr.le)
  spare _ _ _ _ hr hs ℓ d c y ha :=
    (hs ℓ d c y (hr.asked_push (.inl ⟨d, c, rfl⟩) ha)).imp (·.mono Hist.le_push) (·.mono Hist.le_push)

theorem SettledBut.steady : S.Steady B L t (S.SettledBut L t ℓ : History Call Res → Prop) where
  wait _ _ hr hs ℓ' d c y hne ha := (hs ℓ' d c y hne (hr.asked ha)).imp (·.mono hr.le) (·.mono hr.le)
  spare _ _ _ _ hr hs ℓ' d c y hne ha :=
    (hs ℓ' d c y hne (hr.asked_push (.inl ⟨d, c, rfl⟩) ha)).imp (·.mono Hist.le_push) (·.mono Hist.le_push)

/-- Nothing was published since `ℓ`, and that publication stays where it is. -/
theorem Published.go {h' : History Call Res} (hp : S.Published B L h t ℓ n d c) (hh : h ≤ h')
    (hl : ∀ ℓ' d' c' y, h'.Asked ℓ' t (.put S.control d' c') (.ok y) → h.Asked ℓ' t (.put S.control d' c') (.ok y)) :
    S.Published B L h' t ℓ n d c where
  asked := hp.asked.imp fun _ ha => ha.mono hh
  last ℓ' d' c' y ha := hp.last ℓ' d' c' y (hl ℓ' d' c' y ha)
  opened := hp.opened.imp fun _ ha => ⟨ha.1, ha.2.mono hh⟩
  stamp := hp.stamp
  next := hp.next

theorem Published.steady : S.Steady B L t (fun h : History Call Res => S.Published B L h t ℓ n d c) where
  wait _ _ hr hp := hp.go hr.le fun _ _ _ _ ha => hr.asked ha
  spare _ _ _ _ hr hp := hp.go Hist.le_push fun _ d' c' _ ha => hr.asked_push (.inl ⟨d', c', rfl⟩) ha

theorem Acked.steady : S.Steady B L t (fun h : History Call Res => S.Acked B L h t c) :=
  Steady.exists fun _ => Steady.exists fun _ => Steady.exists fun _ => Published.steady.and <|
    Steady.of_mono fun _ _ hh ⟨b, hb, hr⟩ => ⟨b, hb, hr.mono hh⟩

theorem Closed.steady : S.Steady B L t (S.Closed t : History Call Res → Prop) where
  wait _ _ hr hc β d c y ha i b e hi hg := by
    obtain ⟨k, hk, hn, ho⟩ := hc β d c y (hr.asked ha) i b e hi (hr.asked hg)
    refine ⟨k, hk, hn.trans (Hist.now_le hr.le), ?_⟩
    rwa [Hist.storeAt_mono hr.le hn]
  spare h r x s hr hc β d c y ha i b e hi hg := by
    have hb := hr.asked_push (.inr ⟨d, c, rfl⟩) ha
    have hg : h.Asked i t (.get S.control) (.ok (b, some e)) := by
      rcases Hist.asked_push.1 hg with hg | ⟨rfl, -⟩
      · exact hg
      · exact absurd hb.lt (Nat.lt_asymm hi)
    obtain ⟨k, hk, hn, ho⟩ := hc β d c y hb i b e hi hg
    refine ⟨k, hk, hn.trans (Hist.now_le Hist.le_push), ?_⟩
    rwa [Hist.storeAt_mono Hist.le_push hn]

/-- Who moves no counter keeps having moved none. -/
theorem NoBump.noMove {r : Req} {x : Resp r} {s : Store} (hr : S.NoMove r) (hn : S.NoBump t h) :
    S.NoBump t (h.push (.ask t r x) s) := hn.push fun d c y he => by
  simp only [Label.ask.injEq] at he
  exact hr d c he.2.1

/-- Who publishes nothing keeps having settled everything. -/
theorem Settled.noPublish {r : Req} {x : Resp r} {s : Store} (hr : S.NoPublish r) (hs : S.Settled L t h) :
    S.Settled L t (h.push (.ask t r x) s) := by
  intro ℓ d c y ha
  rcases Hist.asked_push.1 ha with ha | ⟨-, he⟩
  · exact (hs ℓ d c y ha).imp (·.mono Hist.le_push) (·.mono Hist.le_push)
  · simp only [Label.ask.injEq] at he
    exact absurd he.2.1 (hr d c)

/-- Who moved no counter closed nothing. -/
theorem NoBump.closed (hn : S.NoBump t h) : S.Closed t h := fun β d c y ha => absurd ha (hn β d c y)

theorem SettledBut.settled (hs : S.SettledBut L t ℓ h)
    (hl : ∀ d c y, h.Asked ℓ t (.put S.control d c) (.ok y) → S.Seen L h t ℓ d ∨ S.Changed h ℓ) : S.Settled L t h := by
  intro ℓ' d c y ha
  by_cases he : ℓ' = ℓ
  · cases he
    exact hl d c y ha
  · exact hs ℓ' d c y he ha

/-- Step `ℓ` published one thing. -/
theorem Published.eq (hp : S.Published B L h t ℓ n d c) {d' : Bytes} {c' : Option Etag} {y : Option Etag}
    (ha : h.Asked ℓ t (.put S.control d' c') (.ok y)) : d' = d := by
  obtain ⟨y₀, e, he, hl⟩ := hp.asked
  obtain ⟨e', he', hl'⟩ := ha
  cases Option.some.inj (he.symm.trans he')
  have heq := hl.symm.trans hl'
  simp only [Label.ask.injEq, Req.put.injEq, true_and] at heq
  exact heq.1.1.symm

theorem SettledBut.settled_of_seen (hs : S.SettledBut L t ℓ h) (hp : S.Published B L h t ℓ n d c) {b : ℕ}
    (hb : ℓ < b) (hr : S.ReadAt h t b n) : S.Settled L t h :=
  hs.settled fun _ _ _ ha => .inl ⟨b, n, hb, hr, hp.eq ha ▸ hp.stamp⟩

theorem SettledBut.settled_of_changed (hs : S.SettledBut L t ℓ h) (hc : S.Changed h ℓ) : S.Settled L t h :=
  hs.settled fun _ _ _ _ => .inr hc

/-- The tombstone is there for who saw two lifetimes. -/
theorem Stale.witnessed (hs : S.Stale h t n) (hI : S.Inv B L h) : S.Witnessed h.store := by
  obtain ⟨i, j, m, hij, hi, hj, hne⟩ := hs
  rw [← Hist.storeAt_now]
  exact hI.witnessed hj.lt.le (Nat.le_refl _) (hI.witnessed_of_reads hi hj hne hij)

/-- The counter has passed a lifetime that was seen closed. -/
theorem Stale.lt_count (hs : S.Stale h t n) (hI : S.Inv B L h) (hB : B.Sound) : n.toNat < S.count h.store := by
  obtain ⟨i, j, m, hij, hi, hj, hne⟩ := hs
  calc n.toNat < m.toNat := hI.lt_of_reads hB hi hj hne hij
    _ = S.count (h.storeAt j) := hj.count.symm
    _ ≤ S.count (h.storeAt h.now) := hI.count_le hB hj.lt.le (Nat.le_refl _)
    _ = S.count h.store := by rw [Hist.storeAt_now]

/-- The counter has reached every lifetime that was read. -/
theorem ReadAt.le_count {a : ℕ} (ha : S.ReadAt h t a n) (hI : S.Inv B L h) (hB : B.Sound) :
    n.toNat ≤ S.count h.store := by
  rw [← ha.count, ← Hist.storeAt_now]
  exact hI.count_le hB ha.lt.le (Nat.le_refl _)

theorem Missed.mono (hh : h ≤ h') (hm : S.Missed h t) : S.Missed h' t := by
  obtain ⟨i, j, hti, hij, hj, ho, hw⟩ := hm
  refine ⟨i, j, hti, hij, hj.trans (Hist.now_le hh), ?_, ?_⟩
  · rwa [Hist.storeAt_mono hh (hij.trans hj)]
  · rwa [Hist.storeAt_mono hh hj]

/-- What was missed was never there before. -/
theorem Missed.never (hm : S.Missed h t) (hI : S.Inv B L h) {k : ℕ} (hk : k ≤ t) : S.object (h.storeAt k) = none := by
  obtain ⟨i, j, hti, hij, hj, ho, hw⟩ := hm
  by_contra hne
  exact hw (hI.witnessed hij hj (hI.gone (hk.trans hti.le) (hij.trans hj) hne ho))

/-! ### The four moments of a publication -/

section
variable {Sys : System Store Req Resp Call Res} {ε α : Type} {E : CounterErrors ε} {P : Prop} {e : Etag}

/-- What a program that spares the three objects leaves as it was. -/
theorem safe_frame {X : History Call Res → Prop} {β : Type} {p : Prog Req Resp β} {Q : β → History Call Res → Prop}
    (hp : p.Every S.Spares fun _ => True) (hX : S.Steady B L t X) (hh : X h) (hs : Safe Sys (S.Inv B L) t p Q h) :
    Safe Sys (S.Inv B L) t p (fun a h' => Q a h' ∧ X h') h :=
  hs.frame hp hX.wait (fun h r x s hr => hX.spare h r x s hr) hh

/-- A program that spares the three objects. -/
theorem safe_spares {X : History Call Res → Prop} {β : Type} {p : Prog Req Resp β} {Q : β → Prop}
    (hx : ∀ s r x s', Sys.exec s r x s' → B.exec s r x s') (hp : p.Every S.Spares Q) (hX : S.Steady B L t X)
    (hh : X h) : Safe Sys (S.Inv B L) t p (fun a h' => Q a ∧ X h') h :=
  safe_frame (hp.imp fun _ _ => trivial) hX hh <| Safe.of_every hp fun _ _ _ _ hI hr hex =>
    let ⟨hok, hgo⟩ := hr.keeps hI.state (hx _ _ _ _ hex)
    hI.ask ⟨hx _ _ _ _ hex, .spare hr⟩ hok hgo

/-- How a write ends: what it published is settled, and if it succeeded its last publication was made in an
open lifetime, as far as `P`. -/
def Wrote (S : Slots) (B : Backend) (L : Lifetimes Bytes) (P : Prop) (t : ℕ) (c : Option Etag) (r : Except ε α)
    (h : History Call Res) : Prop :=
  (S.Calm B → S.Settled L t h) ∧ ∀ a, r = .ok a → P → S.Acked B L h t c

theorem safe_throw {err : ε} (hs : S.Calm B → S.Settled L t h) :
    Safe Sys (S.Inv B L) t (throw err : StoreOp ε α).run (S.Wrote B L P t c) h :=
  Safe.ret fun _ hr => ⟨Settled.steady.imp.wait _ _ hr hs, by simp⟩

theorem safe_fault {err : ε} (hf : B.faults) :
    Safe Sys (S.Inv B L) t (throw err : StoreOp ε α).run (S.Wrote B L P t c) h :=
  safe_throw fun hc => absurd hf hc.1

theorem safe_pure {a : α} (hs : S.Calm B → S.Settled L t h) (ha : P → S.Acked B L h t c) :
    Safe Sys (S.Inv B L) t (pure a : StoreOp ε α).run (S.Wrote B L P t c) h :=
  Safe.ret fun _ hr => ⟨Settled.steady.imp.wait _ _ hr hs, fun _ _ => Acked.steady.imp.wait _ _ hr ha⟩

/-- The put of a control stamped with a lifetime the call has read. -/
theorem safe_publish {a : ℕ} {f : Except StoreError (Option Etag) → StoreOp ε α} {Q : Except ε α → History Call Res → Prop}
    (hx : ∀ s r x s', Sys.exec s r x s' → B.exec s r x s') (ha : S.ReadAt h t a n) (hst : L.stamp d = n.toNat)
    (hn : ∀ e, c = some e → ∃ b, B.tags b e ∧ L.next b d) (hs : S.Calm B → S.Settled L t h)
    (hok : ∀ h₁ ℓ y, h ≤ h₁ → S.Inv B L h₁ → S.Published B L h₁ t ℓ n d c → (S.Calm B → S.SettledBut L t ℓ h₁) →
      (∀ e, y = some e → B.tags d e ∧ S.object (h₁.storeAt (ℓ + 1)) = some ⟨d, e⟩) → (y = none → B.faults) →
      Safe Sys (S.Inv B L) t (f (.ok y)).run Q h₁)
    (herr : ∀ h₁ e, h ≤ h₁ → S.Inv B L h₁ → (S.Calm B → S.Settled L t h₁) → (e ≠ .preconditionFailed → B.faults) →
      Safe Sys (S.Inv B L) t (f (.error e)).run Q h₁) :
    Safe Sys (S.Inv B L) t (uploadConditional S.control d c >>= f).run Q h := by
  refine safe_ask hx (.control _ _) fun h₁ hr x s hex => ⟨?_, fun hI => ?_⟩
  · cases hc : c with
    | none => exact put_control_new hr.inv.state (hc ▸ hex) fun hB => hst ▸ (ha.mono hr.le).le_count hr.inv hB
    | some e =>
      obtain ⟨b, hb, hnext⟩ := hn e hc
      exact put_control_next hr.inv.state (hc ▸ hex) hb fun _ => hnext
  have hs₁ : S.Calm B → S.Settled L t h₁ := Settled.steady.imp.wait _ _ hr hs
  match x, hex, hI with
  | .ok y, hex, hI =>
    obtain ⟨-, e, he, rfl, hy⟩ := Backend.put_ok hex
    refine hok _ h₁.now y (hr.le.trans Hist.le_push) hI ⟨⟨y, Hist.asked_push_now⟩, ?_, ?_, hst, hn⟩ ?_ ?_ ?_
    · exact fun ℓ' d' c' y' ha' => Nat.le_of_lt_succ (by simpa using ha'.lt)
    · exact ⟨a, (ha.mono hr.le).lt, (ha.mono hr.le).mono Hist.le_push⟩
    · intro hc ℓ' d' c' y' hne ha'
      rcases Hist.asked_push.1 ha' with ha' | ⟨hl, -⟩
      · exact (hs₁ hc ℓ' d' c' y' ha').imp (·.mono Hist.le_push) (·.mono Hist.le_push)
      · exact absurd hl hne
    · rintro e' rfl
      obtain rfl := hy e' rfl
      refine ⟨he, ?_⟩
      rw [Hist.storeAt_post Hist.at_push_now, object, AList.lookup_insert]
    · rintro rfl
      refine Classical.byContradiction fun hf => ?_
      obtain ⟨e, he⟩ := Backend.put_etag hf hex
      cases he
  | .error e, hex, hI =>
    refine herr _ e (hr.le.trans Hist.le_push) hI (fun hc ℓ' d' c' y' ha' => ?_) fun he => Backend.put_failed hex he
    rcases Hist.asked_push.1 ha' with ha' | ⟨-, hl⟩
    · exact (hs₁ hc ℓ' d' c' y' ha').imp (·.mono Hist.le_push) (·.mono Hist.le_push)
    · simp only [Label.ask.injEq, true_and] at hl
      obtain ⟨hreq, hans⟩ := hl
      cases hreq
      cases hans

/-- A read of the counter and what follows it. -/
theorem safe_current {X : History Call Res → Prop} {f : UInt64 → StoreOp ε α} {Q : Except ε α → History Call Res → Prop}
    (hx : ∀ s r x s', Sys.exec s r x s' → B.exec s r x s') (hI : S.Inv B L h) (hX : S.Steady B L t X) (hh : X h)
    (hk : ∀ h₁ n a, h ≤ h₁ → S.Inv B L h₁ → S.ReadAt h₁ t a n → X h₁ → Safe Sys (S.Inv B L) t (f n).run Q h₁)
    (herr : ∀ h₁ err, h ≤ h₁ → S.Inv B L h₁ → X h₁ → Safe Sys (S.Inv B L) t (throw err : StoreOp ε α).run Q h₁) :
    Safe Sys (S.Inv B L) t (readCounter E S.counter >>= f).run Q h := by
  refine Safe.bindE hI ((safe_frame (every_readCounter (P := S.Spares) trivial) hX hh (safe_readCounter hx)).imp ?_)
  rintro (err | n) h₁ hle hI₁ ⟨⟨hread, -⟩, hX₁⟩
  · exact herr h₁ err hle hI₁ hX₁
  · obtain ⟨a, -, ha⟩ := hread n rfl
    exact hk h₁ n a hle hI₁ ha hX₁

/-- A program that spares the three objects and what follows it. -/
theorem safe_step {β : Type} {X : History Call Res → Prop} {p : StoreOp ε β} {f : β → StoreOp ε α}
    {R : Except ε β → Prop} {Q : Except ε α → History Call Res → Prop}
    (hx : ∀ s r x s', Sys.exec s r x s' → B.exec s r x s')
    (hI : S.Inv B L h) (hp : p.run.Every S.Spares R) (hX : S.Steady B L t X) (hh : X h)
    (hk : ∀ h₁ a, R (.ok a) → h ≤ h₁ → S.Inv B L h₁ → X h₁ → Safe Sys (S.Inv B L) t (f a).run Q h₁)
    (herr : ∀ h₁ err, h ≤ h₁ → S.Inv B L h₁ → X h₁ → Safe Sys (S.Inv B L) t (throw err : StoreOp ε α).run Q h₁) :
    Safe Sys (S.Inv B L) t (p >>= f).run Q h := by
  refine Safe.bindE hI ((safe_spares hx hp hX hh).imp ?_)
  rintro (err | a) h₁ hle hI₁ ⟨hR, hX₁⟩
  · exact herr h₁ err hle hI₁ hX₁
  · exact hk h₁ a hR hle hI₁ hX₁

/-- The read of the counter after a publication. -/
theorem safe_recheck {f : UInt64 → StoreOp ε α} {Q : Except ε α → History Call Res → Prop}
    (hx : ∀ s r x s', Sys.exec s r x s' → B.exec s r x s') (hI : S.Inv B L h) (ha : ∃ a, S.ReadAt h t a n)
    (hp : P → S.Published B L h t ℓ n d c) (hb : S.Calm B → S.SettledBut L t ℓ h) (hP : S.Calm B → P)
    (hfresh : ∀ h₁, h ≤ h₁ → S.Inv B L h₁ →
      (P → S.Published B L h₁ t ℓ n d c ∧ ∃ b, ℓ < b ∧ S.ReadAt h₁ t b n) → (S.Calm B → S.Settled L t h₁) →
      Safe Sys (S.Inv B L) t (f n).run Q h₁)
    (hstale : ∀ h₁ m, m ≠ n → h ≤ h₁ → S.Inv B L h₁ → S.Stale h₁ t n → (S.Calm B → S.SettledBut L t ℓ h₁) →
      Safe Sys (S.Inv B L) t (f m).run Q h₁)
    (herr : ∀ h₁ err, B.faults → Safe Sys (S.Inv B L) t (throw err : StoreOp ε α).run Q h₁) :
    Safe Sys (S.Inv B L) t (readCounter E S.counter >>= f).run Q h := by
  have hX : S.Steady B L t fun h : History Call Res =>
      (P → S.Published B L h t ℓ n d c) ∧ (S.Calm B → S.SettledBut L t ℓ h) :=
    Published.steady.imp.and SettledBut.steady.imp
  refine Safe.bindE hI ((safe_frame (every_readCounter (P := S.Spares) trivial) hX ⟨hp, hb⟩ (safe_readCounter hx)).imp ?_)
  rintro (err | m) h₁ hle hI₁ ⟨⟨hread, hok⟩, hp₁, hb₁⟩
  · refine herr h₁ err (Classical.byContradiction fun hf => ?_)
    obtain ⟨_, hm⟩ := hok hf
    cases hm
  obtain ⟨j, hj, hrj⟩ := hread m rfl
  obtain ⟨a, ha⟩ := ha
  by_cases hmn : m = n
  · subst hmn
    refine hfresh h₁ hle hI₁ (fun hP' => ⟨hp₁ hP', j, ?_, hrj⟩) fun hc => ?_
    · exact Nat.lt_of_lt_of_le (let ⟨_, hy⟩ := (hp hP').asked; hy.lt) hj
    · exact (hb₁ hc).settled_of_seen (hp₁ (hP hc)) (Nat.lt_of_lt_of_le (let ⟨_, hy⟩ := (hp (hP hc)).asked; hy.lt) hj) hrj
  · exact hstale h₁ m hmn hle hI₁ ⟨a, j, m, ha.lt.le.trans hj, ha.mono hle, hrj, Ne.symm hmn⟩ hb₁

/-- The eviction of a control of a lifetime that was seen closed. -/
theorem safe_evict {b : Bytes} {f : Except StoreError Unit → StoreOp ε α} {Q : Except ε α → History Call Res → Prop}
    (hx : ∀ s r x s', Sys.exec s r x s' → B.exec s r x s') (hst : S.Stale h t n) (htag : B.tags b e)
    (hbn : L.stamp b = n.toNat) (hb : S.Calm B → S.SettledBut L t ℓ h)
    (hob : S.Calm B → S.Changed h ℓ ∨ ℓ < h.now ∧ ∃ o, S.object (h.storeAt (ℓ + 1)) = some o ∧ o.etag = e)
    (hk : ∀ h₁ x, h ≤ h₁ → S.Inv B L h₁ → (S.Calm B → S.Settled L t h₁) → (x = .error .failed → B.faults) →
      Safe Sys (S.Inv B L) t (f x).run Q h₁) :
    Safe Sys (S.Inv B L) t (deleteConditional S.control e >>= f).run Q h := by
  refine safe_ask hx (.remove _) fun h₁ hr x s hex => ⟨?_, fun hI => ?_⟩
  · have hst₁ := hst.mono hr.le
    exact delete_control hr.inv.state hex (hst₁.witnessed hr.inv) htag fun hB => hbn ▸ hst₁.lt_count hr.inv hB
  refine hk _ x (hr.le.trans Hist.le_push) hI (fun hc => ?_) fun hxf => Backend.deleteIf_failed (hxf ▸ hex)
  have hpush : h ≤ h₁.push (.ask t (.deleteIf S.control e) x) s := hr.le.trans Hist.le_push
  have hb₁ : S.SettledBut L t ℓ (h₁.push (.ask t (.deleteIf S.control e) x) s) := by
    intro ℓ' d c y hne ha
    rcases Hist.asked_push.1 ha with ha | ⟨-, hl⟩
    · exact ((SettledBut.steady.wait _ _ hr (hb hc)) ℓ' d c y hne ha).imp (·.mono Hist.le_push) (·.mono Hist.le_push)
    · simp at hl
  rcases hob hc with hch | ⟨hlt, o, ho, rfl⟩
  · exact hb₁.settled_of_changed (hch.mono hpush)
  refine hb₁.settled_of_changed ⟨h₁.now + 1, ?_, ?_, ?_⟩
  · exact Nat.lt_succ_of_lt (Nat.lt_of_lt_of_le hlt (Hist.now_le hr.le))
  · rw [Hist.push_now]
  · rw [Hist.storeAt_post Hist.at_push_now, Hist.storeAt_mono hpush (Nat.succ_le_of_lt hlt), ho]
    intro heq
    refine Backend.deleteIf_gone hc.1 hex o ?_ rfl
    rw [hc.2]
    exact heq

/-! ### The moments of a destroy -/

/-- The only control call `t` has seen is the one tagged `e`. -/
def SawOnly (S : Slots) (t : ℕ) (e : Etag) (h : History Call Res) : Prop :=
  ∀ i b e', h.Asked i t (.get S.control) (.ok (b, some e')) → e' = e

theorem SawOnly.wait (hs : S.SawOnly t e h) (hr : Rely (S.Inv B L) t h h') : S.SawOnly t e h' :=
  fun i b e' ha => hs i b e' (hr.asked ha)

theorem SawOnly.push {r : Req} {x : Resp r} {s : Store} (hs : S.SawOnly t e h) (hr : r ≠ .get S.control) :
    S.SawOnly t e (h.push (.ask t r x) s) := by
  intro i b e' ha
  rcases Hist.asked_push.1 ha with ha | ⟨-, ha⟩
  · exact hs i b e' ha
  · simp only [Label.ask.injEq] at ha
    exact absurd ha.2.1 hr

/-- The put of the tombstone: if it does not fail, a tombstone is there. -/
theorem safe_witness {f : Except StoreError (Option Etag) → StoreOp ε α} {Q : Except ε α → History Call Res → Prop}
    (hx : ∀ s r x s', Sys.exec s r x s' → B.exec s r x s') (hn : S.NoBump t h) (hs : S.SawOnly t e h)
    (hk : ∀ h₁ x, h ≤ h₁ → S.Inv B L h₁ → S.NoBump t h₁ → S.SawOnly t e h₁ →
      ((∃ y, x = .ok y) ∨ x = .error .preconditionFailed → S.Witnessed h₁.store) →
      Safe Sys (S.Inv B L) t (f x).run Q h₁) :
    Safe Sys (S.Inv B L) t (uploadConditional S.tombstone d none >>= f).run Q h := by
  refine safe_ask hx (.tombstone _) fun h₁ hr x s hex => ⟨put_tombstone hr.inv.state hex, fun hI => ?_⟩
  refine hk _ x (hr.le.trans Hist.le_push) hI ((hn.wait hr).push fun d' c' y hl => ?_)
    ((hs.wait hr).push (by simp)) ?_
  · simp only [Label.ask.injEq, true_and] at hl
    obtain ⟨hreq, -⟩ := hl
    simp only [Req.put.injEq] at hreq
    exact S.counter_ne_tombstone (by rw [hreq.1])
  · rw [Hist.push_store, Witnessed]
    rintro (⟨y, rfl⟩ | rfl)
    · obtain ⟨-, e, -, rfl, -⟩ := Backend.put_ok hex
      simp [AList.lookup_insert]
    · obtain ⟨ha, rfl⟩ := Backend.put_precondition hex
      intro hnone
      rw [Store.accepts_none.2 hnone] at ha
      cases ha

/-- The bump, with the tombstone in place. -/
theorem safe_bump {f : UInt64 → StoreOp ε α} {Q : Except ε α → History Call Res → Prop} {tries : ℕ}
    (hx : ∀ s r x s', Sys.exec s r x s' → B.exec s r x s') (hI : S.Inv B L h) (hw : S.Witnessed h.store)
    (hn : S.NoBump t h) (hs : S.SawOnly t e h)
    (hk : ∀ h₁ n, h ≤ h₁ → S.Inv B L h₁ → (B.Sound → S.count h.store < S.count h₁.store) → S.SawOnly t e h₁ →
      Safe Sys (S.Inv B L) t (f n).run Q h₁)
    (herr : ∀ h₁ err, S.NoBump t h₁ → Safe Sys (S.Inv B L) t (throw err : StoreOp ε α).run Q h₁) :
    Safe Sys (S.Inv B L) t (bumpCounter E S.counter tries >>= f).run Q h := by
  have hbump : Safe Sys (S.Inv B L) t (bumpCounter E S.counter tries).run (S.Bumped B t h) h :=
    safe_bumpCounter hx (le_refl h) hw hn tries
  have hne : (bumpCounter E S.counter tries).run.Every (fun r => r ≠ .get S.control) fun _ => True :=
    every_bumpCounter (fun h => S.control_ne_counter (by rw [Req.get.inj h])) (fun _ _ => nofun) tries
  refine Safe.bindE hI ((hbump.frame (X := S.SawOnly t e) hne
    (fun _ _ hr hs => hs.wait hr) (fun _ _ _ _ hr hs => hs.push hr) hs).imp ?_)
  rintro (err | n) h₁ hle hI₁ ⟨⟨hlt, hno⟩, hs₁⟩
  · exact herr h₁ err (hno err rfl)
  · exact hk h₁ n hle hI₁ (hlt n rfl) hs₁

/-- The deletion of the control that was seen, once the counter has passed it. -/
theorem safe_remove {b : Bytes} {f : Except StoreError Unit → StoreOp ε α} {Q : Except ε α → History Call Res → Prop}
    (hx : ∀ s r x s', Sys.exec s r x s' → B.exec s r x s') (hw : S.Witnessed h.store) (htag : B.tags b e)
    (hb : B.Sound → L.stamp b < S.count h.store) (hs : S.SawOnly t e h)
    (hk : ∀ h₁ x, h ≤ h₁ → S.Inv B L h₁ → (S.Calm B → S.Closed t h₁) → (x = .error .failed → B.faults) →
      Safe Sys (S.Inv B L) t (f x).run Q h₁) :
    Safe Sys (S.Inv B L) t (deleteConditional S.control e >>= f).run Q h := by
  refine safe_ask hx (.remove _) fun h₁ hr x s hex => ⟨?_, fun hI => ?_⟩
  · refine delete_control hr.inv.state hex (hr.inv.witnessed_store hr.le hw) htag fun hB => ?_
    exact (hb hB).trans_le (hr.inv.count_store_le hr.le hB)
  refine hk _ x (hr.le.trans Hist.le_push) hI (fun hc => ?_) fun hxf => Backend.deleteIf_failed (hxf ▸ hex)
  intro β d c y hβ i b' e' hi hg
  obtain rfl := ((hs.wait hr).push (by simp)) i b' e' hg
  have hlt : β < h₁.now + 1 := by simpa using hβ.lt
  refine ⟨h₁.now + 1, hlt, by rw [Hist.push_now], fun o ho => ?_⟩
  rw [Hist.storeAt_post Hist.at_push_now] at ho
  refine Backend.deleteIf_gone hc.1 hex o ?_
  rwa [hc.2]

end

end Slots

end YeetzS3
