import YeetzS3.Conc.Run

/-!
# Playing a schedule

A run is determined by who moves when, once the service answers in one way. `World.play` follows such a
schedule and computes the world it leads to, so that a concrete run can be exhibited by naming its moves.
-/

namespace Conc

variable {σ Req : Type} {Resp : Req → Type} {Call : Type} {Res : Call → Type}

/-- A new call, or a step of call `t`. -/
inductive Move (Call : Type) where
  | start (c : Call)
  | step (t : ℕ)

namespace World

variable (prog : (c : Call) → Prog Req Resp (Res c)) (serve : σ → (r : Req) → Resp r × σ)

/-- The world after one move; a call that cannot move stays where it is. -/
def move (w : World σ Req Resp Call Res) : Move Call → World σ Req Resp Call Res
  | .start c => ⟨w.hist.push (.start c) w.hist.store, Function.update w.live w.hist.now (some ⟨c, prog c⟩)⟩
  | .step t =>
    match w.live t with
    | some ⟨c, .ret res⟩ => ⟨w.hist.push (.done t c res) w.hist.store, Function.update w.live t none⟩
    | some ⟨c, .call r k⟩ =>
      ⟨w.hist.push (.ask t r (serve w.hist.store r).1) (serve w.hist.store r).2,
        Function.update w.live t (some ⟨c, k (serve w.hist.store r).1⟩)⟩
    | some ⟨_, .stop⟩ | none => w

/-- A new call, and `n` steps of it alone. -/
def alone (c : Call) (n : ℕ) (w : World σ Req Resp Call Res) : World σ Req Resp Call Res :=
  (List.replicate n (.step w.hist.now)).foldl (move prog serve) (w.move prog serve (.start c))

/-- The world a schedule leads to, from state `s`. -/
def play (s : σ) (ms : List (Move Call)) : World σ Req Resp Call Res :=
  ms.foldl (move prog serve) ⟨.empty s, fun _ => none⟩

end World

variable {S : System σ Req Resp Call Res} {serve : σ → (r : Req) → Resp r × σ}

theorem Reach.move {w : World σ Req Resp Call Res} (hx : ∀ s r, S.exec s r (serve s r).1 (serve s r).2) (hw : Reach S w)
    (m : Move Call) : Reach S (w.move S.prog serve m) := by
  cases m with
  | start c => exact hw.start c
  | step t =>
    simp only [World.move]
    split
    · next c res hl => exact hw.done hl
    · next c r k hl => exact hw.ask hl (hx _ _)
    · exact hw
    · exact hw

theorem Reach.moves {w : World σ Req Resp Call Res} (hx : ∀ s r, S.exec s r (serve s r).1 (serve s r).2) (hw : Reach S w)
    (ms : List (Move Call)) : Reach S (ms.foldl (World.move S.prog serve) w) := by
  induction ms generalizing w with
  | nil => exact hw
  | cons m ms ih => exact ih (hw.move hx m)

/-- The calls a schedule starts are later than what was there. -/
theorem started_of_moves {prog : (c : Call) → Prog Req Resp (Res c)} {w : World σ Req Resp Call Res} {ms : List (Move Call)} {i : ℕ} {e}
    {c : Call} (he : (ms.foldl (World.move prog serve) w).hist.At i e) (hl : e.label = .start c) :
    w.hist.At i e ∨ w.hist.now ≤ i ∧ .start c ∈ ms := by
  induction ms generalizing w with
  | nil => exact .inl he
  | cons m ms ih =>
    have hstep : (w.move prog serve m).hist.At i e → w.hist.At i e ∨ w.hist.now ≤ i ∧ .start c ∈ m :: ms := by
      intro he
      cases m with
      | start c' =>
        refine (Hist.at_push.1 he).imp id ?_
        rintro ⟨rfl, rfl⟩
        cases hl
        exact ⟨le_rfl, List.mem_cons_self⟩
      | step t =>
        simp only [World.move] at he
        split at he
        · refine .inl ((Hist.at_push.1 he).resolve_right ?_)
          rintro ⟨-, rfl⟩
          cases hl
        · refine .inl ((Hist.at_push.1 he).resolve_right ?_)
          rintro ⟨-, rfl⟩
          cases hl
        · exact .inl he
        · exact .inl he
    have hnow : w.hist.now ≤ (w.move prog serve m).hist.now := by
      cases m with
      | start c' => exact Hist.now_le Hist.le_push
      | step t =>
        simp only [World.move]
        split
        · exact Hist.now_le Hist.le_push
        · exact Hist.now_le Hist.le_push
        · exact le_rfl
        · exact le_rfl
    rcases ih he with he | ⟨hi, hc⟩
    · exact hstep he
    · exact .inr ⟨hnow.trans hi, List.mem_cons_of_mem _ hc⟩

theorem started_of_alone {prog : (c : Call) → Prog Req Resp (Res c)} {w : World σ Req Resp Call Res} {c c' : Call} {n i : ℕ} {e}
    (he : (w.alone prog serve c' n).hist.At i e) (hl : e.label = .start c) : w.hist.At i e ∨ c = c' := by
  refine (@started_of_moves _ _ _ _ _ _ _ w (.start c' :: List.replicate n (.step w.hist.now)) _ _ _ he hl).imp id ?_
  rintro ⟨-, hc⟩
  rcases List.mem_cons.1 hc with hc | hc
  · exact Move.start.inj hc
  · cases (List.mem_replicate.1 hc).2

theorem Reach.play (hx : ∀ s r, S.exec s r (serve s r).1 (serve s r).2) {s : σ} (hs : S.init s) (ms : List (Move Call)) :
    Reach S (World.play S.prog serve s ms) := by
  exact (Reach.init hs).moves hx ms

theorem Reach.alone {w : World σ Req Resp Call Res} (hx : ∀ s r, S.exec s r (serve s r).1 (serve s r).2) (hw : Reach S w)
    (c : Call) (n : ℕ) : Reach S (w.alone S.prog serve c n) := (hw.move hx (.start c)).moves hx _

end Conc
