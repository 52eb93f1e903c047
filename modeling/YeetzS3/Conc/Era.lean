import Mathlib.Logic.Relation
import Mathlib.Order.Nat

/-!
# A cell with lifetimes

A shared cell holds at most one value, beside a counter that says which lifetime is open. Every value is
stamped with the lifetime its writer believed to be open. Writers of different lifetimes race, so a value
of a lifetime that was closed meanwhile may appear, be replaced and be removed again; only removals of
closed values happen. `Lifetimes.line` is what that is good for: as long as the counter stands, a value
of the open lifetime is only ever replaced by its successors.
-/

namespace Conc

/-- The value of a cell and the lifetime that is open. -/
structure Cell (V : Type) where
  val : Option V
  ctr : ℕ

/-- The lifetime a value is stamped with, and which value may replace which. -/
structure Lifetimes (V : Type) where
  stamp : V → ℕ
  next : V → V → Prop
  stamp_next : ∀ {v w}, next v w → stamp w = stamp v

namespace Lifetimes

variable {V : Type} (L : Lifetimes V)

/-- What one step may do to the cell. -/
inductive Step : Cell V → Cell V → Prop where
  | advance {v : Option V} {i j : ℕ} (h : i ≤ j) : Step ⟨v, i⟩ ⟨v, j⟩
  | create {v : V} {i : ℕ} (h : L.stamp v ≤ i) : Step ⟨none, i⟩ ⟨some v, i⟩
  | replace {v w : V} {i : ℕ} (h : L.next v w) : Step ⟨some v, i⟩ ⟨some w, i⟩
  | remove {v : V} {i : ℕ} (h : L.stamp v < i) : Step ⟨some v, i⟩ ⟨none, i⟩

/-- No value is stamped with a lifetime that has not begun. -/
def Sane (c : Cell V) : Prop := ∀ v, c.val = some v → L.stamp v ≤ c.ctr

/-- Any number of steps. -/
abbrev Run : Cell V → Cell V → Prop := Relation.ReflTransGen L.Step

variable {L} {c d : Cell V}

theorem Step.refl (c : Cell V) : L.Step c c := .advance (Nat.le_refl _)

theorem Step.ctr_le (h : L.Step c d) : c.ctr ≤ d.ctr := by
  cases h with
  | advance h => exact h
  | create | replace | remove => exact Nat.le_refl _

theorem Step.sane (h : L.Step c d) (hc : L.Sane c) : L.Sane d := by
  cases h with
  | advance h => exact fun v hv => (hc v hv).trans h
  | create h =>
    rintro v ⟨⟩
    exact h
  | replace h =>
    rintro w ⟨⟩
    rw [L.stamp_next h]
    exact hc _ rfl
  | remove h => rintro v ⟨⟩

/-- While the counter stands, an open value is only replaced by its successors. -/
theorem Run.line (h : L.Run c d) {v : V} (hv : c.val = some v) (hopen : d.ctr ≤ L.stamp v) :
    ∃ w, d.val = some w ∧ Relation.ReflTransGen L.next v w := by
  induction h with
  | refl => exact ⟨v, hv, .refl⟩
  | @tail m d hr hs ih =>
    obtain ⟨w, hw, hvw⟩ := ih (hs.ctr_le.trans hopen)
    have hstamp : L.stamp w = L.stamp v := by
      clear hw ih
      induction hvw with
      | refl => rfl
      | tail _ hn ih => rw [L.stamp_next hn, ih]
    cases hs with
    | advance h => exact ⟨w, hw, hvw⟩
    | create h => cases hw
    | replace h =>
      cases hw
      exact ⟨_, rfl, hvw.tail h⟩
    | remove h =>
      cases hw
      exact absurd (hstamp ▸ h) (Nat.not_lt.2 hopen)

end Lifetimes

end Conc
