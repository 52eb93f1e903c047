import YeetzS3.Conc.Prog
import Mathlib.Data.List.Basic
import Mathlib.Order.Basic
import Mathlib.Order.Nat
import Mathlib.Logic.Function.Basic

/-!
# Runs of a shared service

Any number of clients work on one service of state `σ`. A client starts a call, asks one request after
another, and returns; the steps of all clients interleave freely, and a client that is never scheduled
again has crashed. `Hist` is what happened so far, oldest step first, each step with the service's
state before and after it; the index of a call's `start` step is the call's name. `Reach` are the
worlds a `System` can reach.
-/

namespace Conc

/-- What one step of a run is: call `t` is named by the index of its `start` step. -/
inductive Label (Req : Type) (Resp : Req → Type) (Call : Type) (Res : Call → Type) where
  | start (c : Call)
  | ask (t : ℕ) (r : Req) (x : Resp r)
  | done (t : ℕ) (c : Call) (res : Res c)

/-- The call under way that makes the step. -/
def Label.caller {Req : Type} {Resp : Req → Type} {Call : Type} {Res : Call → Type} : Label Req Resp Call Res → Option ℕ
  | start _ => none
  | ask t _ _ => some t
  | done t _ _ => some t

/-- One step, with the state of the service before and after it. -/
structure Step (σ Req : Type) (Resp : Req → Type) (Call : Type) (Res : Call → Type) where
  label : Label Req Resp Call Res
  pre : σ
  post : σ

/-- The state after `steps`, from `init`. -/
def lastOf {σ Req : Type} {Resp : Req → Type} {Call : Type} {Res : Call → Type} (init : σ)
    (steps : List (Step σ Req Resp Call Res)) : σ :=
  (steps.getLast?.map (·.post)).getD init

/-- A history: every step begins in the state the steps before it led to. -/
structure Hist (σ Req : Type) (Resp : Req → Type) (Call : Type) (Res : Call → Type) where
  init : σ
  steps : List (Step σ Req Resp Call Res)
  linked : ∀ i e, steps[i]? = some e → e.pre = lastOf init (steps.take i)

section
variable {σ Req : Type} {Resp : Req → Type} {Call : Type} {Res : Call → Type}

namespace Hist

/-- Step `i` is `e`. -/
abbrev At (h : Hist σ Req Resp Call Res) (i : ℕ) (e : Step σ Req Resp Call Res) : Prop := h.steps[i]? = some e

/-- The state at time `i`, before step `i`. -/
def storeAt (h : Hist σ Req Resp Call Res) (i : ℕ) : σ := lastOf h.init (h.steps.take i)

/-- The state now. -/
def store (h : Hist σ Req Resp Call Res) : σ := lastOf h.init h.steps

/-- The next name: the number of steps so far. -/
def now (h : Hist σ Req Resp Call Res) : ℕ := h.steps.length

/-- The history in which nothing has happened. -/
def empty (s : σ) : Hist σ Req Resp Call Res := ⟨s, [], by simp⟩

/-- One more step, from the state now to `post`. -/
def push (h : Hist σ Req Resp Call Res) (l : Label Req Resp Call Res) (post : σ) : Hist σ Req Resp Call Res where
  init := h.init
  steps := h.steps ++ [⟨l, h.store, post⟩]
  linked := by
    intro i e hi
    rcases Nat.lt_trichotomy i h.steps.length with hl | rfl | hl
    · rw [List.getElem?_append_left hl] at hi
      rw [List.take_append_of_le_length (by omega)]
      exact h.linked i e hi
    · simp only [List.getElem?_concat_length, Option.some.injEq] at hi
      rw [List.take_left', ← hi, store]
      rfl
    · rw [List.getElem?_eq_none (by simp; omega)] at hi
      cases hi

/-- Histories are ordered by what they have seen: `h ≤ h'` when `h'` goes on from `h`. -/
instance : Preorder (Hist σ Req Resp Call Res) where
  le h h' := h.init = h'.init ∧ h.steps <+: h'.steps
  le_refl h := ⟨rfl, List.prefix_rfl⟩
  le_trans _ _ _ h₁ h₂ := ⟨h₁.1.trans h₂.1, h₁.2.trans h₂.2⟩

variable {h h' : Hist σ Req Resp Call Res} {i j : ℕ} {e f : Step σ Req Resp Call Res}
  {l : Label Req Resp Call Res} {s : σ}

@[simp] theorem push_steps : (h.push l s).steps = h.steps ++ [⟨l, h.store, s⟩] := rfl
@[simp] theorem push_init : (h.push l s).init = h.init := rfl
@[simp] theorem empty_steps : (empty s : Hist σ Req Resp Call Res).steps = [] := rfl
@[simp] theorem empty_init : (empty s : Hist σ Req Resp Call Res).init = s := rfl
@[simp] theorem empty_store : (empty s : Hist σ Req Resp Call Res).store = s := rfl

@[simp] theorem not_at_empty : ¬ (empty s).At i e := by simp [At]

@[simp] theorem push_store : (h.push l s).store = s := by
  simp [store, lastOf]

theorem le_push : h ≤ h.push l s := ⟨rfl, List.prefix_append _ _⟩

@[simp] theorem push_now : (h.push l s).now = h.now + 1 := by simp [now]

theorem now_le (hh : h ≤ h') : h.now ≤ h'.now := hh.2.length_le

/-- What has happened stays where it is. -/
theorem at_mono (hh : h ≤ h') (hi : h.At i e) : h'.At i e := by
  obtain ⟨r, hr⟩ := hh.2
  have hl : i < h.steps.length := (List.getElem?_eq_some_iff.1 hi).1
  rw [At, ← hr, List.getElem?_append_left hl, hi]

theorem at_lt (hi : h.At i e) : i < h.now := (List.getElem?_eq_some_iff.1 hi).1

/-- A step of the longer history at a time the shorter one has reached is a step of the shorter. -/
theorem at_of_lt (hh : h ≤ h') (hi : h'.At i e) (hl : i < h.now) : h.At i e := by
  obtain ⟨r, hr⟩ := hh.2
  rwa [At, ← hr, List.getElem?_append_left hl] at hi

theorem at_push : (h.push l s).At i e ↔
    h.At i e ∨ i = h.now ∧ e = ⟨l, h.store, s⟩ := by
  rw [At, At, push_steps]
  rcases Nat.lt_trichotomy i h.steps.length with hl | rfl | hl
  · rw [List.getElem?_append_left hl]
    simp only [now]
    grind
  · simp [now, eq_comm]
  · rw [List.getElem?_eq_none (by simp; omega), List.getElem?_eq_none (by omega)]
    simp only [now]
    grind

theorem at_push_now : (h.push l s).At h.now ⟨l, h.store, s⟩ := at_push.2 (.inr ⟨rfl, rfl⟩)

@[simp] theorem storeAt_zero : h.storeAt 0 = h.init := by simp [storeAt, lastOf]

@[simp] theorem storeAt_now : h.storeAt h.now = h.store := by simp [storeAt, now, store]

theorem storeAt_pre (hi : h.At i e) : h.storeAt i = e.pre := (h.linked i e hi).symm

theorem storeAt_post (hi : h.At i e) : h.storeAt (i + 1) = e.post := by
  simp [storeAt, lastOf, List.take_add_one, hi]

theorem storeAt_mono (hh : h ≤ h') (hi : i ≤ h.now) : h'.storeAt i = h.storeAt i := by
  obtain ⟨r, hr⟩ := hh.2
  simp only [storeAt, ← hh.1, ← hr]
  rw [List.take_append_of_le_length hi]

theorem store_eq_storeAt (hh : h ≤ h') : h.store = h'.storeAt h.now := by
  rw [storeAt_mono hh (Nat.le_refl _), storeAt_now]

/-- A reflexive, transitive relation that every step keeps relates the states at two times. -/
theorem steps_rel {R : σ → σ → Prop} (hr : ∀ a, R a a) (ht : ∀ {a b c}, R a b → R b c → R a c)
    (hij : i ≤ j) (hj : j ≤ h.now)
    (hR : ∀ k e, i ≤ k → k < j → h.At k e → R e.pre e.post) :
    R (h.storeAt i) (h.storeAt j) := by
  induction hij with
  | refl => exact hr _
  | @step j hij ih =>
    have hij : i ≤ j := hij
    have hlt : j < h.steps.length := hj
    have hk : h.steps[j]? = some h.steps[j] := List.getElem?_eq_getElem hlt
    have hstep := hR j _ hij (Nat.lt_succ_self j) hk
    rw [storeAt_post hk]
    refine ht (ih (by omega) fun k e hk hkj => hR k e hk (by omega)) ?_
    rwa [storeAt_pre hk]

/-- Step `i` is request `r` of call `t`, answered by `x`. -/
def Asked (h : Hist σ Req Resp Call Res) (i t : ℕ) (r : Req) (x : Resp r) : Prop :=
  ∃ e, h.At i e ∧ e.label = .ask t r x

/-- Step `i` is the return of call `t`, made as `c`, with `res`. -/
def Done (h : Hist σ Req Resp Call Res) (i t : ℕ) (c : Call) (res : Res c) : Prop :=
  ∃ e, h.At i e ∧ e.label = .done t c res

variable {t : ℕ} {r : Req} {x : Resp r}

theorem Done.mono {c : Call} {res : Res c} (hh : h ≤ h') (hd : h.Done i t c res) : h'.Done i t c res :=
  let ⟨e, he, hl⟩ := hd
  ⟨e, at_mono hh he, hl⟩

theorem Asked.lt (ha : h.Asked i t r x) : i < h.now :=
  let ⟨_, he, _⟩ := ha
  at_lt he

theorem Asked.mono (hh : h ≤ h') (ha : h.Asked i t r x) : h'.Asked i t r x :=
  let ⟨e, he, hl⟩ := ha
  ⟨e, at_mono hh he, hl⟩

theorem asked_push {t' : ℕ} {r' : Req} {x' : Resp r'} :
    (h.push (.ask t' r' x') s).Asked i t r x ↔
      h.Asked i t r x ∨ i = h.now ∧ (.ask t' r' x' : Label Req Resp Call Res) = .ask t r x := by
  simp only [Asked, at_push]
  constructor
  · rintro ⟨e, he | ⟨hi, rfl⟩, hl⟩
    · exact .inl ⟨e, he, hl⟩
    · exact .inr ⟨hi, hl⟩
  · rintro (⟨e, he, hl⟩ | ⟨hi, hl⟩)
    · exact ⟨e, .inl he, hl⟩
    · exact ⟨_, .inr ⟨hi, rfl⟩, hl⟩

theorem asked_push_now : (h.push (.ask t r x) s).Asked h.now t r x := asked_push.2 (.inr ⟨rfl, rfl⟩)

/-- Before and after a step that was just made. -/
theorem push_storeAt_now : (h.push l s).storeAt h.now = h.store := storeAt_pre at_push_now

end Hist

/-- A call under way, and the rest of its program. -/
structure Thread (Req : Type) (Resp : Req → Type) (Call : Type) (Res : Call → Type) where
  call : Call
  rest : Prog Req Resp (Res call)

/-- What happened so far, and the calls under way by name. -/
structure World (σ Req : Type) (Resp : Req → Type) (Call : Type) (Res : Call → Type) where
  hist : Hist σ Req Resp Call Res
  live : ℕ → Option (Thread Req Resp Call Res)

/-- The program of every call, what the service may do on a request, and the states it may begin in. -/
structure System (σ Req : Type) (Resp : Req → Type) (Call : Type) (Res : Call → Type) where
  prog : (c : Call) → Prog Req Resp (Res c)
  exec : σ → (r : Req) → Resp r → σ → Prop
  init : σ → Prop

/-- The worlds a system reaches. -/
inductive Reach (S : System σ Req Resp Call Res) : World σ Req Resp Call Res → Prop where
  | init {s : σ} (h : S.init s) : Reach S ⟨.empty s, fun _ => none⟩
  | start {w : World σ Req Resp Call Res} (hw : Reach S w) (c : Call) :
      Reach S ⟨w.hist.push (.start c) w.hist.store, Function.update w.live w.hist.now (some ⟨c, S.prog c⟩)⟩
  | ask {w : World σ Req Resp Call Res} (hw : Reach S w) {t : ℕ} {c : Call} {r : Req}
      {k : Resp r → Prog Req Resp (Res c)} (hl : w.live t = some ⟨c, .call r k⟩) {x : Resp r} {s : σ}
      (hx : S.exec w.hist.store r x s) :
      Reach S ⟨w.hist.push (.ask t r x) s, Function.update w.live t (some ⟨c, k x⟩)⟩
  | done {w : World σ Req Resp Call Res} (hw : Reach S w) {t : ℕ} {c : Call} {res : Res c}
      (hl : w.live t = some ⟨c, .ret res⟩) :
      Reach S ⟨w.hist.push (.done t c res) w.hist.store, Function.update w.live t none⟩

/-- A run begins where the system may begin. -/
theorem Reach.init_hist {S : System σ Req Resp Call Res} {w : World σ Req Resp Call Res} (hw : Reach S w) :
    S.init w.hist.init := by
  induction hw with
  | init h => exact h
  | start _ _ ih => exact ih
  | ask _ _ _ ih => exact ih
  | done _ _ ih => exact ih

end

end Conc
