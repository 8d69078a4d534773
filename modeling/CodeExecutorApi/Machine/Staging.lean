import Mathlib.Data.List.Nodup
import Mathlib.Logic.Function.Basic

/-! Maps that entries are written to. An entry can be staged first, under a key of its own that the
map does not use, to be committed or discarded later. -/
namespace Machine
variable {κ ν : Type} [DecidableEq κ]

/-- The map after the entries were written to it one after the other. -/
def written (entries : List (κ × ν)) (f : κ → Option ν) : κ → Option ν :=
  entries.foldl (fun f e => Function.update f e.1 (some e.2)) f

section Written
variable {entries : List (κ × ν)} {f : κ → Option ν} {k : κ} {n : ν} {o : Option ν}

theorem written_cons (e : κ × ν) (entries : List (κ × ν)) (f : κ → Option ν) :
    written (e :: entries) f = written entries (Function.update f e.1 (some e.2)) := rfl

theorem written_concat (entries : List (κ × ν)) (e : κ × ν) (f : κ → Option ν) :
    written (entries ++ [e]) f = Function.update (written entries f) e.1 (some e.2) :=
  List.foldl_append

theorem written_update (h : ∀ e ∈ entries, e.1 ≠ k) :
    written entries (Function.update f k o) = Function.update (written entries f) k o := by
  induction entries generalizing f with
  | nil => rfl
  | cons e entries ih =>
    have hne : e.1 ≠ k := h e List.mem_cons_self
    have hrest := fun e he => h e (List.mem_cons_of_mem _ he)
    rw [written_cons,written_cons,Function.update_comm hne.symm,ih hrest]

/-- A key that no entry has keeps its value. -/
theorem written_other (h : ∀ e ∈ entries, e.1 ≠ k) : written entries f k = f k := by
  induction entries generalizing f with
  | nil => rfl
  | cons e entries ih =>
    have hne : e.1 ≠ k := h e List.mem_cons_self
    rw [written_cons,ih fun e he => h e (List.mem_cons_of_mem _ he),
      Function.update_of_ne hne.symm]

theorem written_eq_none (h : written entries f k = none) : f k = none ∧ ∀ e ∈ entries, e.1 ≠ k := by
  induction entries generalizing f with
  | nil => exact ⟨h,nofun⟩
  | cons e entries ih =>
    rw [written_cons] at h
    obtain ⟨hnone,hrest⟩ := ih h
    have hne : e.1 ≠ k := by
      rintro rfl
      rw [Function.update_self] at hnone
      cases hnone
    rw [Function.update_of_ne hne.symm] at hnone
    exact ⟨hnone,List.forall_mem_cons.mpr ⟨hne,hrest⟩⟩

theorem written_eq_some (h : written entries f k = some n) :
    f k = some n ∨ ∃ e ∈ entries, e.1 = k := by
  by_cases hk : ∃ e ∈ entries, e.1 = k
  · exact .inr hk
  · rw [written_other fun e he heq => hk ⟨e,he,heq⟩] at h
    exact .inl h

/-- Of entries with keys of their own each is found. -/
theorem written_mem (h : (entries.map Prod.fst).Nodup) {e : κ × ν} (he : e ∈ entries) :
    written entries f e.1 = some e.2 := by
  induction entries generalizing f with
  | nil => cases he
  | cons e' entries ih =>
    obtain ⟨hnew,hrest⟩ := List.nodup_cons.mp h
    rw [written_cons]
    rcases List.mem_cons.mp he with rfl | he
    · rw [written_other fun e' he' heq => hnew (List.mem_map.mpr ⟨e',he',heq⟩),
        Function.update_self]
    · exact ih hrest he

end Written

/-- The map is `files` with the staged entries beside it. -/
structure Pending (files map : κ → Option ν) (staged : List (κ × ν)) : Prop where
  map_eq : map = written staged files
  nodup : (staged.map Prod.fst).Nodup
  free : ∀ e ∈ staged, files e.1 = none

namespace Pending
variable {files map : κ → Option ν} {staged : List (κ × ν)} {k k' : κ} {n : ν}

theorem nil (files : κ → Option ν) : Pending files files [] := ⟨rfl,List.nodup_nil,nofun⟩

theorem eq_files (h : Pending files map []) : map = files := h.map_eq

theorem ne_of_free (h : Pending files map staged) (hk : map k = none) :
    files k = none ∧ ∀ e ∈ staged, e.1 ≠ k := written_eq_none (h.map_eq ▸ hk)

theorem map_mem (h : Pending files map staged) {e : κ × ν} (he : e ∈ staged) :
    map e.1 = some e.2 := by
  rw [h.map_eq,written_mem h.nodup he]

/-- An entry is staged. -/
theorem stage (h : Pending files map staged) (hk : map k = none) :
    Pending files (Function.update map k (some n)) (staged ++ [(k,n)]) := by
  obtain ⟨hfree,hne⟩ := h.ne_of_free hk
  refine ⟨?_,?_,?_⟩
  · rw [written_concat,h.map_eq]
  · rw [List.map_append,List.nodup_append]
    refine ⟨h.nodup,List.nodup_singleton _,?_⟩
    simp only [List.mem_map,List.map_cons,List.map_nil,List.mem_singleton]
    rintro _ ⟨e,he,rfl⟩ _ rfl
    exact hne e he
  · simp only [List.mem_append,List.mem_singleton]
    rintro e (he | rfl)
    · exact h.free e he
    · exact hfree

/-- An entry is put beside the staged ones for good. -/
theorem litter (h : Pending files map staged) (hk : map k = none) :
    Pending (Function.update files k (some n)) (Function.update map k (some n)) staged := by
  obtain ⟨_,hne⟩ := h.ne_of_free hk
  refine ⟨?_,h.nodup,fun e he => ?_⟩
  · rw [written_update hne,h.map_eq]
  · rw [Function.update_of_ne (hne e he)]
    exact h.free e he

variable (h : Pending files map ((k,n) :: staged))
include h

theorem head_ne : ∀ e ∈ staged, e.1 ≠ k := by
  intro e he heq
  exact (List.nodup_cons.mp h.nodup).1 (List.mem_map.mpr ⟨e,he,heq⟩)

/-- The first staged entry is discarded. -/
theorem discard : Pending files (Function.update map k none) staged := by
  refine ⟨?_,(List.nodup_cons.mp h.nodup).2,fun e he => h.free e (List.mem_cons_of_mem _ he)⟩
  have hnone : files k = none := h.free _ List.mem_cons_self
  rw [h.map_eq,written_cons,← written_update h.head_ne,Function.update_idem,← hnone,
    Function.update_eq_self]

/-- The first staged entry is given up and stays. -/
theorem keep : Pending (Function.update files k (some n)) map staged := by
  refine ⟨h.map_eq,(List.nodup_cons.mp h.nodup).2,fun e he => ?_⟩
  rw [Function.update_of_ne (h.head_ne e he)]
  exact h.free e (List.mem_cons_of_mem _ he)

/-- The first staged entry gets its own key. -/
theorem commit (hk : ∀ e ∈ staged, e.1 ≠ k') :
    Pending (Function.update files k' (some n))
      (Function.update (Function.update map k none) k' (some n)) staged := by
  have hrest := h.discard
  refine ⟨?_,hrest.nodup,fun e he => ?_⟩
  · rw [written_update hk,hrest.map_eq]
  · rw [Function.update_of_ne (hk e he)]
    exact hrest.free e he

end Pending
end Machine
