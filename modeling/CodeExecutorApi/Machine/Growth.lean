import Mathlib.Data.List.Basic
import Mathlib.Order.Basic

/-! Steps that never go down in an order, and when they go up. -/
namespace Machine
variable {α β : Type*} [PartialOrder α] {a b c : α} {p q : Prop}

/-- From `a` to `b` it does not go down, and it goes up just if `p`. -/
structure Climbs (p : Prop) (a b : α) : Prop where
  le : a ≤ b
  eq_iff : b = a ↔ ¬p

namespace Climbs

theorem rest (h : b = a) (hp : ¬p) : Climbs p a b := ⟨h.ge,iff_of_true h hp⟩

theorem strict (h : a < b) (hp : p) : Climbs p a b :=
  ⟨h.le,iff_of_false h.ne' fun hno => hno hp⟩

theorem congr (h : Climbs p a b) (hpq : p ↔ q) : Climbs q a b := ⟨h.le,h.eq_iff.trans (not_congr hpq)⟩

/-- Who never goes down is back only if there was no way up. -/
theorem trans (h : Climbs p a b) (h' : Climbs q b c) : Climbs (p ∨ q) a c := by
  refine ⟨h.le.trans h'.le,?_⟩
  rw [not_or,← h.eq_iff,← h'.eq_iff]
  constructor
  · intro hca
    have hba : b = a := le_antisymm (h'.le.trans hca.le) h.le
    exact ⟨hba,hca.trans hba.symm⟩
  · exact fun ⟨hba,hcb⟩ => hcb.trans hba

/-- A step that stays on the level before or after. -/
theorem level (h : Climbs p a b) (hc : c = b) : Climbs p a c := hc ▸ h

end Climbs

/-- Steps one after the other. -/
inductive Chain {γ : Type*} (step : β → γ → γ → Prop) : γ → List β → γ → Prop
  | nil (s : γ) : Chain step s [] s
  | cons {x : β} {xs : List β} {s t u : γ} (head : step x s t) (tail : Chain step t xs u) :
      Chain step s (x :: xs) u

/-- A chain goes up just if one of its steps does, wherever its states stand in the order. -/
theorem Chain.climbs {γ : Type*} {step : β → γ → γ → Prop} {up : β → Prop} {f : γ → α}
    (hstep : ∀ x s t, step x s t → Climbs (up x) (f s) (f t)) {xs : List β} {s t : γ}
    (h : Chain step s xs t) : Climbs (∃ x ∈ xs, up x) (f s) (f t) := by
  induction h with
  | nil s => exact .rest rfl (by simp)
  | @cons x xs s t u head tail ih =>
    refine ((hstep x s t head).trans ih).congr ?_
    rw [List.exists_mem_cons_iff]

end Machine
