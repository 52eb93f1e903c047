import YeetzS3.Slots

/-!
# Calls on one lifetime

What a call knows while it works on the three objects of one `Slots`: counters never go back, a
tombstone stays, an open control is only replaced by its successors. The counter's two operations are
specified here once; the operations of keys and of lineages are built on them.
-/

namespace YeetzS3

open Conc

variable {Call : Type} {Res : Call → Type}

/-- A history of store requests. -/
abbrev History (Call : Type) (Res : Call → Type) := Hist Store Req Resp Call Res

namespace Slots

variable (S : Slots) (B : Backend) (L : Lifetimes Bytes)

/-- A backend serves a request the operations on the three objects make. -/
def Serves (s : Store) (r : Req) (x : Resp r) (s' : Store) : Prop := B.exec s r x s' ∧ S.Touches r

/-- The invariant of every run: the states are `Ok`, the steps `Goes`, and nothing else is asked. -/
abbrev Inv (h : History Call Res) : Prop := Kept (S.Serves B) (S.Ok B L) (S.Goes B L) h

/-- Call `t` read the counter at time `j` and found `n`. -/
structure ReadAt (h : History Call Res) (t j : ℕ) (n : UInt64) : Prop where
  asked : ∃ x, h.Asked j t (.get S.counter) x
  count : S.count (h.storeAt j) = n.toNat
  counted : n ≠ 0 → S.Counted (h.storeAt j)

variable {S B L} {h h' : History Call Res} {t i j : ℕ}

theorem ReadAt.lt {n : UInt64} (hr : S.ReadAt h t j n) : j < h.now :=
  let ⟨_, hx⟩ := hr.asked
  hx.lt

theorem ReadAt.mono {n : UInt64} (hh : h ≤ h') (hr : S.ReadAt h t j n) : S.ReadAt h' t j n where
  asked := let ⟨x, hx⟩ := hr.asked; ⟨x, hx.mono hh⟩
  count := by rw [Hist.storeAt_mono hh hr.lt.le]; exact hr.count
  counted := by rw [Hist.storeAt_mono hh hr.lt.le]; exact hr.counted

namespace Inv

/-- Counters never go back. -/
theorem count_le (hI : S.Inv B L h) (hB : B.Sound) (hij : i ≤ j) (hj : j ≤ h.now) :
    S.count (h.storeAt i) ≤ S.count (h.storeAt j) :=
  hI.rel (R := fun s s' => S.count s ≤ S.count s') (fun _ => Nat.le_refl _) (fun h₁ h₂ => Nat.le_trans h₁ h₂)
    (fun _ _ _ _ hg => (hg.step hB).ctr_le) hij hj

/-- A tombstone stays. -/
theorem witnessed (hI : S.Inv B L h) (hij : i ≤ j) (hj : j ≤ h.now) (hw : S.Witnessed (h.storeAt i)) :
    S.Witnessed (h.storeAt j) :=
  hI.rel (R := fun s s' => S.Witnessed s → S.Witnessed s') (fun _ => id) (fun h₁ h₂ => h₂ ∘ h₁)
    (fun _ _ _ _ hg => hg.witnessed) hij hj hw

/-- The control goes along its lifetimes. -/
theorem run (hI : S.Inv B L h) (hB : B.Sound) (hij : i ≤ j) (hj : j ≤ h.now) :
    L.Run (S.cell (h.storeAt i)) (S.cell (h.storeAt j)) :=
  hI.rel (R := fun s s' => L.Run (S.cell s) (S.cell s')) (fun _ => .refl) (fun h₁ h₂ => h₁.trans h₂)
    (fun _ _ _ _ hg => .single (hg.step hB)) hij hj

/-- Counters never go back, from now to later. -/
theorem count_store_le (hI : S.Inv B L h') (hh : h ≤ h') (hB : B.Sound) : S.count h.store ≤ S.count h'.store := by
  rw [Hist.store_eq_storeAt hh, ← Hist.storeAt_now (h := h')]
  exact hI.count_le hB (Hist.now_le hh) (Nat.le_refl _)

/-- A tombstone that is there stays. -/
theorem witnessed_store (hI : S.Inv B L h') (hh : h ≤ h') (hw : S.Witnessed h.store) : S.Witnessed h'.store := by
  rw [Hist.store_eq_storeAt hh] at hw
  rw [← Hist.storeAt_now (h := h')]
  exact hI.witnessed (Hist.now_le hh) (Nat.le_refl _) hw

/-- A control that is gone had its tombstone written before. -/
theorem gone (hI : S.Inv B L h) (hij : i ≤ j) (hj : j ≤ h.now) (hi : S.object (h.storeAt i) ≠ none)
    (hn : S.object (h.storeAt j) = none) : S.Witnessed (h.storeAt j) := by
  have := hI.rel (R := fun s s' => (S.Witnessed s → S.Witnessed s') ∧
      (S.object s ≠ none → S.object s' ≠ none ∨ S.Witnessed s'))
    (fun _ => ⟨id, .inl⟩)
    (fun h₁ h₂ => ⟨h₂.1 ∘ h₁.1, fun ho => (h₁.2 ho).elim h₂.2 fun hw => .inr (h₂.1 hw)⟩)
    (fun s s' _ _ hg => ⟨hg.witnessed, fun ho => by
      by_cases ho' : S.object s' = none
      · exact .inr (hg.witnessed (hg.gone ho ho'))
      · exact .inl ho'⟩) hij hj
  exact (this.2 hi).elim (fun ho => absurd hn ho) id

/-- Someone who read two different numbers knows the tombstone is there. -/
theorem witnessed_of_reads (hI : S.Inv B L h) {n m : UInt64} (hn : S.ReadAt h t i n) (hm : S.ReadAt h t j m)
    (hne : n ≠ m) (hij : i ≤ j) : S.Witnessed (h.storeAt j) := by
  by_cases hn0 : n = 0
  · have hm0 : m ≠ 0 := fun h0 => hne (hn0.trans h0.symm)
    exact (hI.stateAt hm.lt.le).witness (hm.counted hm0)
  · exact hI.witnessed hij hm.lt.le ((hI.stateAt hn.lt.le).witness (hn.counted hn0))

/-- Two different reads are in order. -/
theorem lt_of_reads (hI : S.Inv B L h) (hB : B.Sound) {n m : UInt64} (hn : S.ReadAt h t i n) (hm : S.ReadAt h t j m)
    (hne : n ≠ m) (hij : i ≤ j) : n.toNat < m.toNat := by
  have hle := hI.count_le hB hij hm.lt.le
  rw [hn.count, hm.count] at hle
  exact Nat.lt_of_le_of_ne hle fun he => hne (UInt64.toNat_inj.1 he)

end Inv

/-! ### Requests -/

variable {Sys : System Store Req Resp Call Res} {ε α : Type} {E : CounterErrors ε} {Q : Except ε α → History Call Res → Prop}

/-- One request and what follows it. -/
theorem safe_ask {r : Req} {f : Resp r → StoreOp ε α} (hx : ∀ s r x s', Sys.exec s r x s' → B.exec s r x s')
    (ht : S.Touches r)
    (hs : ∀ h₁, Rely (S.Inv B L) t h h₁ → ∀ x s, B.exec h₁.store r x s →
      (S.Ok B L s ∧ S.Goes B L h₁.store s) ∧ (S.Inv B L (h₁.push (.ask t r x) s) →
        Safe Sys (S.Inv B L) t (f x).run Q (h₁.push (.ask t r x) s))) :
    Safe Sys (S.Inv B L) t (Op.ask r >>= f).run Q h := by
  rw [Op.run_ask_bind]
  intro h₁ hr x s hex
  obtain ⟨⟨hok, hgo⟩, hk⟩ := hs h₁ hr x s (hx _ _ _ _ hex)
  have hI := hr.inv.ask (t := t) ⟨hx _ _ _ _ hex, ht⟩ hok hgo
  exact ⟨hI, hk hI⟩

/-- A download and what follows it. -/
theorem safe_download {p : Str} {f : Except StoreError (Bytes × Option Etag) → StoreOp ε α}
    (hx : ∀ s r x s', Sys.exec s r x s' → B.exec s r x s')
    (hs : ∀ h₁, Rely (S.Inv B L) t h h₁ → ∀ x, B.exec h₁.store (.get p) x h₁.store →
      S.Inv B L (h₁.push (.ask t (.get p) x) h₁.store) →
      Safe Sys (S.Inv B L) t (f x).run Q (h₁.push (.ask t (.get p) x) h₁.store)) :
    Safe Sys (S.Inv B L) t (download p >>= f).run Q h := by
  refine safe_ask hx (.spare trivial) fun h₁ hr x s hex => ?_
  obtain rfl := Backend.get_store hex
  exact ⟨⟨hr.inv.state, .refl _⟩, hs h₁ hr x hex⟩

/-! ### The counter's operations -/

theorem readAt_push {x : Resp (.get S.counter)} {s : Store} {n : UInt64} (hc : S.count h.store = n.toNat)
    (hp : n ≠ 0 → S.Counted h.store) : S.ReadAt (h.push (.ask t (.get S.counter) x) s) t h.now n where
  asked := ⟨x, Hist.asked_push_now⟩
  count := by rwa [Hist.push_storeAt_now]
  counted := by rwa [Hist.push_storeAt_now]

/-- A read of the counter finds what it is at some moment of the read. -/
theorem safe_readCounter (hx : ∀ s r x s', Sys.exec s r x s' → B.exec s r x s') :
    Safe Sys (S.Inv B L) t (readCounter E S.counter).run
      (fun r h' => (∀ n, r = .ok n → ∃ j, h.now ≤ j ∧ S.ReadAt h' t j n) ∧ (¬ B.faults → ∃ n, r = .ok n)) h := by
  refine safe_download hx fun h₁ hr x hex _ => ?_
  have hle : h.now ≤ h₁.now := Hist.now_le hr.le
  match x, hex with
  | .ok (raw, e), hex =>
    obtain ⟨o, ho, rfl, -⟩ := Backend.get_ok hex
    obtain ⟨n, hn⟩ := hr.inv.state.counter o ho
    simp only [hn, u64OfBytes_u64Bytes, Op.run_pure]
    refine Safe.ret fun h₂ hr₂ => ⟨?_, fun _ => ⟨n, rfl⟩⟩
    rintro m ⟨⟩
    exact ⟨h₁.now, hle, (readAt_push (count_of_lookup ho hn) fun _ hnone => by simp [ho] at hnone).mono hr₂.le⟩
  | .error .notFound, hex =>
    refine Safe.ret fun h₂ hr₂ => ⟨?_, fun _ => ⟨0, rfl⟩⟩
    rintro m ⟨⟩
    exact ⟨h₁.now, hle, (readAt_push (count_of_none (Backend.get_notFound hex)) fun h0 => absurd rfl h0).mono hr₂.le⟩
  | .error .preconditionFailed, hex =>
    exact Safe.ret fun h₂ _ => ⟨by simp, fun hB => absurd (Backend.get_error hex (by simp)) hB⟩
  | .error .failed, hex =>
    exact Safe.ret fun h₂ _ => ⟨by simp, fun hB => absurd (Backend.get_error hex (by simp)) hB⟩

/-- Call `t` has not moved the counter. -/
def NoBump (S : Slots) (t : ℕ) (h : History Call Res) : Prop :=
  ∀ β d c y, ¬ h.Asked β t (.put S.counter d c) (.ok y)

theorem NoBump.wait (hn : S.NoBump t h) (hr : Rely (S.Inv B L) t h h') : S.NoBump t h' :=
  fun β d c y ha => hn β d c y (hr.asked ha)

theorem NoBump.push {r : Req} {x : Resp r} {s : Store} (hn : S.NoBump t h)
    (hr : ∀ d c y, (Label.ask t r x : Label Req Resp Call Res) ≠ .ask t (.put S.counter d c) (.ok y)) :
    S.NoBump t (h.push (.ask t r x) s) := by
  intro β d c y ha
  rcases Hist.asked_push.1 ha with ha | ⟨-, ha⟩
  · exact hn β d c y ha
  · exact hr d c y ha

/-- How a bump from `h` on ends: the counter moved, or it failed without having moved it. -/
def Bumped (S : Slots) (B : Backend) (t : ℕ) (h : History Call Res) (r : Except ε UInt64) (h' : History Call Res) : Prop :=
  (∀ n, r = .ok n → B.Sound → S.count h.store < S.count h'.store) ∧ (∀ e, r = .error e → S.NoBump t h')

theorem safe_bump_error {h₀ : History Call Res} {e : ε} (hn : S.NoBump t h) :
    Safe Sys (S.Inv B L) t (throw e : StoreOp ε UInt64).run (S.Bumped B t h₀) h :=
  Safe.ret fun _ hr => ⟨by simp, fun _ _ => hn.wait hr⟩

/-- A put of the counter's next number, accepted only where it raises the counter. -/
theorem safe_putCounter {h₀ : History Call Res} {c : Option Etag} {n : UInt64}
    {f : Except StoreError (Option Etag) → StoreOp ε UInt64} (hx : ∀ s r x s', Sys.exec s r x s' → B.exec s r x s')
    (hh : h₀ ≤ h) (hw : S.Witnessed h₀.store) (hn : S.NoBump t h)
    (hc : ∀ s : Store, s.Tagged B → B.Sound → s.accepts (pathFrom S.counter) c = true → S.count s < n.toNat)
    (hok : ∀ y, f (.ok y) = pure n) (herr : ∀ e, e ≠ .preconditionFailed → ∃ e', f (.error e) = throw e')
    (hagain : ∀ h₁, h₀ ≤ h₁ → S.Inv B L h₁ → S.NoBump t h₁ →
      Safe Sys (S.Inv B L) t (f (.error .preconditionFailed)).run (S.Bumped B t h₀) h₁) :
    Safe Sys (S.Inv B L) t (uploadConditional S.counter (u64Bytes n) c >>= f).run (S.Bumped B t h₀) h := by
  refine safe_ask hx (.counter _ _) fun h₁ hr y s hey => ⟨?_, fun hI => ?_⟩
  · exact put_counter hr.inv.state hey (hr.inv.witnessed_store (hh.trans hr.le) hw) (hc _ hr.inv.state.tagged)
  match y, hey, hI with
  | .ok y, hey, hI =>
    rw [hok]
    obtain ⟨ha, e, -, rfl, -⟩ := Backend.put_ok hey
    refine Safe.ret fun h₂ hr₂ => ⟨fun _ _ hB => ?_, by simp⟩
    calc S.count h₀.store ≤ S.count h₁.store := hr.inv.count_store_le (hh.trans hr.le) hB
      _ < n.toNat := hc _ hr.inv.state.tagged hB ha
      _ = S.count (h₁.store.insert (pathFrom S.counter) ⟨u64Bytes n, e⟩) :=
        (count_of_lookup (AList.lookup_insert _) rfl).symm
      _ ≤ S.count h₂.store := by
        have := hr₂.inv.count_store_le hr₂.le hB
        rwa [Hist.push_store] at this
  | .error .preconditionFailed, _, hI =>
    exact hagain _ (hh.trans (hr.le.trans Hist.le_push)) hI ((hn.wait hr).push (by simp))
  | .error .notFound, _, hI =>
    obtain ⟨e', he⟩ := herr .notFound (by simp)
    exact he ▸ safe_bump_error ((hn.wait hr).push (by simp))
  | .error .failed, _, hI =>
    obtain ⟨e', he⟩ := herr .failed (by simp)
    exact he ▸ safe_bump_error ((hn.wait hr).push (by simp))

/-- A bump, made with the tombstone in place, moves the counter or fails without having moved it. -/
theorem safe_bumpCounter {h₀ : History Call Res} (hx : ∀ s r x s', Sys.exec s r x s' → B.exec s r x s')
    (hh : h₀ ≤ h) (hw : S.Witnessed h₀.store) (hn : S.NoBump t h) (tries : ℕ) :
    Safe Sys (S.Inv B L) t (bumpCounter E S.counter tries).run (S.Bumped B t h₀) h := by
  induction tries generalizing h with
  | zero => exact safe_bump_error hn
  | succ tries ih =>
    refine safe_download hx fun h₁ hr x hex _ => ?_
    have hh₁ : h₀ ≤ h₁.push (.ask t (.get S.counter) x) h₁.store := hh.trans (hr.le.trans Hist.le_push)
    have hn₁ : S.NoBump t (h₁.push (.ask t (.get S.counter) x) h₁.store) := (hn.wait hr).push (by simp)
    match x, hex, hh₁, hn₁ with
    | .ok (raw, none), _, _, hn₁ => exact safe_bump_error hn₁
    | .ok (raw, some etag), hex, hh₁, hn₁ =>
      obtain ⟨o, ho, hraw, he⟩ := Backend.get_ok hex
      obtain ⟨n, hd⟩ := hr.inv.state.counter o ho
      obtain rfl : raw = u64Bytes n := hraw.symm.trans hd
      have htag : B.tags (u64Bytes n) etag := hd ▸ he etag rfl ▸ hr.inv.state.tagged _ o ho
      simp only [u64OfBytes_u64Bytes]
      cases hs : checkedSucc n with
      | none => exact safe_bump_error hn₁
      | some next =>
        refine safe_putCounter hx hh₁ hw hn₁ (fun s ht hB ha => ?_) (fun _ => rfl) ?_ fun h₂ hh₂ _ hn₂ => ih hh₂ hn₂
        · obtain ⟨o', ho', rfl⟩ := Store.accepts_some.1 ha
          rw [count_of_lookup ho' (hB _ _ _ (ht _ _ ho') htag), toNat_of_checkedSucc hs]
          exact Nat.lt_succ_self _
        · rintro (_ | _ | _) he
          exacts [⟨_, rfl⟩, absurd rfl he, ⟨_, rfl⟩]
    | .error .notFound, _, hh₁, hn₁ =>
      refine safe_putCounter hx hh₁ hw hn₁ (fun s _ _ ha => ?_) (fun _ => rfl) ?_ fun h₂ hh₂ _ hn₂ => ih hh₂ hn₂
      · rw [count_of_none (Store.accepts_none.1 ha)]
        decide
      · rintro (_ | _ | _) he
        exacts [⟨_, rfl⟩, absurd rfl he, ⟨_, rfl⟩]
    | .error .preconditionFailed, _, _, hn₁ => exact safe_bump_error hn₁
    | .error .failed, _, _, hn₁ => exact safe_bump_error hn₁

end Slots

end YeetzS3
