import Mathlib.Data.List.Nodup

/-! Accounting for a counting semaphore: what its value says about those who hold a permit. -/
namespace Machine

/-- Any number of different holders fits beside the permits that are left. -/
def Permits {ι : Type*} (capacity value : ℕ) (holds : ι → Prop) : Prop :=
  ∀ l : List ι, l.Nodup → (∀ i ∈ l, holds i) → l.length + value ≤ capacity

namespace Permits
variable {ι : Type*} {capacity value : ℕ} {holds holds' : ι → Prop}

theorem full (capacity : ℕ) (h : ∀ i, ¬holds i) : Permits capacity capacity holds := by
  intro l _ hl
  cases l with
  | nil => simp
  | cons i l => exact absurd (hl i List.mem_cons_self) (h i)

theorem mono (h : Permits capacity value holds) (hh : ∀ i, holds' i → holds i) :
    Permits capacity value holds' := fun l hn hl => h l hn fun i hi => hh i (hl i hi)

/-- A permit is taken by `i`. -/
theorem acquire [DecidableEq ι] (h : Permits capacity (value+1) holds) {i : ι}
    (hh : ∀ j, holds' j → holds j ∨ j = i) : Permits capacity value holds' := by
  intro l hn hl
  have hle := h (l.erase i) (hn.erase i) fun j hj => ?_
  · by_cases hi : i ∈ l
    · rw [List.length_erase_of_mem hi] at hle
      have := List.length_pos_of_mem hi
      omega
    · rw [List.erase_of_not_mem hi] at hle
      omega
  · obtain ⟨hne,hj⟩ := hn.mem_erase_iff.mp hj
    exact (hh j (hl j hj)).resolve_right hne

/-- The holder `i` gives its permit back. -/
theorem release (h : Permits capacity value holds) {i : ι} (hi : holds i)
    (hh : ∀ j, holds' j → holds j ∧ j ≠ i) : Permits capacity (value+1) holds' := by
  intro l hn hl
  have hmem : i ∉ l := fun hm => (hh i (hl i hm)).2 rfl
  have hle := h (i :: l) (List.nodup_cons.mpr ⟨hmem,hn⟩) fun j hj => ?_
  · rw [List.length_cons] at hle
    omega
  · rcases List.mem_cons.mp hj with rfl | hj
    · exact hi
    · exact (hh j (hl j hj)).1

end Permits

/-- The permits that are held and those that are left are all there are. -/
def Issued {ι : Type*} (capacity value : ℕ) (holds : ι → Prop) : Prop :=
  ∃ l : List ι, l.Nodup ∧ (∀ i, holds i ↔ i ∈ l) ∧ l.length + value = capacity

namespace Issued
variable {ι : Type*} {capacity value : ℕ} {holds holds' : ι → Prop}

theorem full (capacity : ℕ) (h : ∀ i, ¬holds i) : Issued capacity capacity holds :=
  ⟨[],.nil,fun i => ⟨fun hi => absurd hi (h i),by simp⟩,Nat.zero_add _⟩

theorem congr (h : Issued capacity value holds) (hh : ∀ i, holds' i ↔ holds i) :
    Issued capacity value holds' := by
  obtain ⟨l,hnodup,hmem,hlength⟩ := h
  exact ⟨l,hnodup,fun i => (hh i).trans (hmem i),hlength⟩

theorem acquire (h : Issued capacity (value+1) holds) {i : ι} (hi : ¬holds i)
    (hh : ∀ j, holds' j ↔ holds j ∨ j = i) : Issued capacity value holds' := by
  obtain ⟨l,hnodup,hmem,hlength⟩ := h
  refine ⟨i::l,List.nodup_cons.mpr ⟨fun hl => hi ((hmem i).mpr hl),hnodup⟩,fun j => ?_,?_⟩
  · rw [hh,hmem,List.mem_cons,or_comm]
  · rw [List.length_cons]
    omega

theorem release [DecidableEq ι] (h : Issued capacity value holds) {i : ι} (hi : holds i)
    (hh : ∀ j, holds' j ↔ holds j ∧ j ≠ i) : Issued capacity (value+1) holds' := by
  obtain ⟨l,hnodup,hmem,hlength⟩ := h
  refine ⟨l.erase i,hnodup.erase i,fun j => ?_,?_⟩
  · rw [hh,hmem,hnodup.mem_erase_iff,and_comm]
  · have hil := (hmem i).mp hi
    rw [List.length_erase_of_mem hil]
    have := List.length_pos_of_mem hil
    omega

/-- Where no permit is left, somebody holds one. -/
theorem exists_holder (h : Issued capacity 0 holds) (hpos : 0 < capacity) : ∃ i, holds i := by
  obtain ⟨l,-,hmem,hlength⟩ := h
  obtain ⟨i,hi⟩ := List.exists_mem_of_length_pos (l := l) (by omega)
  exact ⟨i,(hmem i).mpr hi⟩

end Issued
end Machine
