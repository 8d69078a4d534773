import Mathlib.Data.List.Nodup

/-! Allocation of numbers from a growing range with a list of released ones. A number is held by
one holder, free, not yet handed out, or withheld for good. -/
namespace Machine

/-- Numbers below `next` have been handed out once; those in `free` were given back. -/
structure IdPool {ι : Type*} (next : ℕ) (free : List ℕ) (held : ι → ℕ → Prop) : Prop where
  held_unique : ∀ i j p, held i p → held j p → i = j
  free_nodup : free.Nodup
  free_unheld : ∀ p ∈ free, ∀ i, ¬ held i p
  free_lt : ∀ p ∈ free, p < next
  held_lt : ∀ i p, held i p → p < next

namespace IdPool
variable {ι : Type*} {next : ℕ} {free : List ℕ} {held held' : ι → ℕ → Prop}

theorem empty (next : ℕ) (hh : ∀ i p, ¬ held i p) : IdPool next [] held where
  held_unique i _ p hi := absurd hi (hh i p)
  free_nodup := List.nodup_nil
  free_unheld := by simp
  free_lt := by simp
  held_lt i p hi := absurd hi (hh i p)

/-- A holder may vanish without giving its number back. -/
theorem withhold (h : IdPool next free held) (hh : ∀ i p, held' i p → held i p) :
    IdPool next free held' where
  held_unique i j p hi hj := h.held_unique i j p (hh i p hi) (hh j p hj)
  free_nodup := h.free_nodup
  free_unheld p hp i hi := h.free_unheld p hp i (hh i p hi)
  free_lt := h.free_lt
  held_lt i p hi := h.held_lt i p (hh i p hi)

/-- Adding a holder for a number that is neither held nor free any more. -/
theorem hold (h : IdPool next free held) {next' : ℕ} {free' : List ℕ} {i₀ : ι} {p₀ : ℕ}
    (hfree : free'.Sublist free) (hp : p₀ ∉ free') (hun : ∀ i, ¬ held i p₀) (hlt : p₀ < next')
    (hle : next ≤ next') (hh : ∀ i p, held' i p → held i p ∨ i = i₀ ∧ p = p₀) :
    IdPool next' free' held' where
  held_unique i j p hi hj := by
    rcases hh i p hi with hi | ⟨rfl,rfl⟩ <;> rcases hh j p hj with hj | ⟨hj,hp⟩
    · exact h.held_unique i j p hi hj
    · exact absurd (hp ▸ hi) (hun i)
    · exact absurd hj (hun j)
    · exact hj.symm
  free_nodup := h.free_nodup.sublist hfree
  free_unheld p hmem i hi := by
    rcases hh i p hi with hi | ⟨rfl,rfl⟩
    · exact h.free_unheld p (hfree.subset hmem) i hi
    · exact hp hmem
  free_lt p hmem := Nat.lt_of_lt_of_le (h.free_lt p (hfree.subset hmem)) hle
  held_lt i p hi := by
    rcases hh i p hi with hi | ⟨rfl,rfl⟩
    · exact Nat.lt_of_lt_of_le (h.held_lt i p hi) hle
    · exact hlt

theorem reuse {p₀ : ℕ} (h : IdPool next (free ++ [p₀]) held) {i₀ : ι}
    (hh : ∀ i p, held' i p → held i p ∨ i = i₀ ∧ p = p₀) : IdPool next free held' := by
  have hp : p₀ ∈ free ++ [p₀] := by simp
  refine h.hold (List.sublist_append_left _ _) ?_ (h.free_unheld p₀ hp) (h.free_lt p₀ hp) (Nat.le_refl _) hh
  intro hmem
  exact (List.nodup_append.mp h.free_nodup).2.2 p₀ hmem p₀ (by simp) rfl

theorem fresh (h : IdPool next free held) {i₀ : ι}
    (hh : ∀ i p, held' i p → held i p ∨ i = i₀ ∧ p = next) : IdPool (next+1) free held' := by
  refine h.hold (List.Sublist.refl _) ?_ ?_ (Nat.lt_succ_self _) (Nat.le_succ _) hh
  · exact fun hmem => Nat.lt_irrefl _ (h.free_lt next hmem)
  · exact fun i hi => Nat.lt_irrefl _ (h.held_lt i next hi)

/-- A withheld number is given back. -/
theorem restore (h : IdPool next free held) {p₀ : ℕ} (hp : p₀ ∉ free) (hlt : p₀ < next)
    (hun : ∀ i, ¬ held' i p₀) (hh : ∀ i p, held' i p → held i p) :
    IdPool next (free ++ [p₀]) held' where
  held_unique i j p hi hj := h.held_unique i j p (hh i p hi) (hh j p hj)
  free_nodup := by
    refine List.nodup_append.mpr ⟨h.free_nodup,List.nodup_singleton _,?_⟩
    intro a ha b hb hab
    rw [List.mem_singleton.mp hb] at hab
    exact hp (hab ▸ ha)
  free_unheld p hmem i hi := by
    rcases List.mem_append.mp hmem with hmem | hmem
    · exact h.free_unheld p hmem i (hh i p hi)
    · rw [List.mem_singleton.mp hmem] at hi
      exact hun i hi
  free_lt p hmem := by
    rcases List.mem_append.mp hmem with hmem | hmem
    · exact h.free_lt p hmem
    · exact List.mem_singleton.mp hmem ▸ hlt
  held_lt i p hi := h.held_lt i p (hh i p hi)

/-- The holder of a number gives it back, and holds nothing afterwards. -/
theorem release (h : IdPool next free held) {i₀ : ι} {p₀ : ℕ} (hp : held i₀ p₀)
    (hh : ∀ i p, held' i p → held i p ∧ i ≠ i₀) : IdPool next (free ++ [p₀]) held' := by
  refine h.restore (fun hmem => h.free_unheld p₀ hmem i₀ hp) (h.held_lt i₀ p₀ hp) ?_
    fun i p hi => (hh i p hi).1
  intro i hi
  obtain ⟨hi,hne⟩ := hh i p₀ hi
  exact hne (h.held_unique i i₀ p₀ hi hp)

end IdPool
end Machine
