import CodeExecutorApi.Validation

/-! Which sub_paths are accepted, by the fold of their components, and that what is returned is
canonical. -/
namespace CodeExecutorApi
open Python

/-- One component after those that are left: nothing and `.` drop out, and `..` takes the last one
away if that is not itself a `..`. -/
def climb (stack : List Str) (comp : Str) : List Str :=
  if comp = [] ∨ comp = curdir then stack
  else if comp = pardir then
    if stack = [] ∨ stack.getLast? = some pardir then stack ++ [pardir] else stack.dropLast
  else stack ++ [comp]

/-- The fold of the components of a string, from the left. -/
def fold (s : Str) : List Str := (split s).foldl climb []

@[simp] theorem climb_nil (stack : List Str) : climb stack [] = stack := by simp [climb]

theorem climb_plain (stack : List Str) {comp : Str} (h : Plain comp) :
    climb stack comp = stack ++ [comp] := by
  simp [climb,h.ne_nil,h.ne_curdir,h.ne_pardir]

/-- `normpath` of a relative path takes the same steps. -/
theorem normStep_eq_climb : normStep false = climb := by
  funext stack comp
  unfold normStep climb
  by_cases hskip : comp = [] ∨ comp = curdir
  · simp [hskip]
  · by_cases hpardir : comp = pardir <;> simp [hskip,hpardir]

theorem split_slash (s : Str) : split (slash :: s) = [] :: split s := by
  simp [split,List.splitOn_cons_eq_if_modifyHead]

/-- Leading slashes make no difference. -/
theorem fold_lstrip (s : Str) : fold (lstrip s) = fold s := by
  induction s with
  | nil => rfl
  | cons c s ih =>
    by_cases hc : c = slash
    · subst c
      have hdrop : lstrip (slash :: s) = lstrip s := by simp [lstrip]
      rw [hdrop,ih,fold,fold,split_slash,List.foldl_cons,climb_nil]
    · simp [lstrip,hc]

theorem foldComps_lstrip (s : Str) : foldComps (lstrip s) = fold s := by
  rw [← fold_lstrip,foldComps,fold,normStep_eq_climb]

/-- Plain components are all kept. -/
theorem foldl_climb_plain {comps : List Str} (h : ∀ c ∈ comps, Plain c) (stack : List Str) :
    comps.foldl climb stack = stack ++ comps := by
  induction comps generalizing stack with
  | nil => simp
  | cons c comps ih =>
    rw [List.foldl_cons,climb_plain stack (h c List.mem_cons_self),
      ih fun d hd => h d (List.mem_cons_of_mem _ hd)]
    simp

/-- The components that are left lie in the root. -/
abbrev Inside (comps : List Str) : Prop := comps ≠ [] ∧ comps.head? ≠ some pardir

theorem plain_of_inside {s : Str} (h : Inside (fold s)) : ∀ c ∈ fold s, Plain c := by
  obtain ⟨n,plain,hshape,hplain⟩ := (foldComps_folded (lstrip s)).shape
  rw [foldComps_lstrip] at hshape
  cases n with
  | zero =>
    rw [hshape]
    simpa using hplain
  | succ n =>
    refine absurd ?_ h.2
    rw [hshape,List.replicate_succ]
    rfl

theorem split_fold {s : Str} (h : Inside (fold s)) : split (join (fold s)) = fold s :=
  split_join (fun c hc => (plain_of_inside h c hc).slash_notMem) h.1

theorem split_concat_slash (s : Str) : split (s ++ [slash]) = split s ++ [[]] := by
  induction s with
  | nil => rfl
  | cons c s ih =>
    obtain ⟨d,ds,hds⟩ := List.exists_cons_of_ne_nil (List.splitOn_ne_nil slash s)
    change split s = d :: ds at hds
    by_cases hc : c = slash
    · subst c
      rw [List.cons_append,split_slash,split_slash,ih]
      rfl
    · have hcons (t : Str) : split (c :: t) = (split t).modifyHead (List.cons c) := by
        simp [split,List.splitOn_cons_eq_if_modifyHead,hc]
      rw [List.cons_append,hcons,hcons,ih,hds]
      rfl

theorem mem_split_of_mem {s : Str} {c : CodePoint} (h : c ∈ s) (hc : c ≠ slash) :
    ∃ comp ∈ split s, c ∈ comp := by
  induction s with
  | nil => cases h
  | cons d s ih =>
    obtain ⟨e,es,hes⟩ := List.exists_cons_of_ne_nil (List.splitOn_ne_nil slash s)
    change split s = e :: es at hes
    rw [hes] at ih
    by_cases hd : d = slash
    · subst d
      obtain ⟨comp,hcomp,hmem⟩ := ih ((List.mem_cons.mp h).resolve_left hc)
      rw [split_slash,hes]
      exact ⟨comp,List.mem_cons_of_mem _ hcomp,hmem⟩
    · have hcons : split (d :: s) = (d :: e) :: es := by
        rw [split] at hes
        simp [split,List.splitOn_cons_eq_if_modifyHead,hd,hes]
      rw [hcons]
      rcases List.mem_cons.mp h with rfl | h
      · exact ⟨c :: e,List.mem_cons_self,List.mem_cons_self⟩
      · obtain ⟨comp,hcomp,hmem⟩ := ih h
        rcases List.mem_cons.mp hcomp with rfl | hcomp
        · exact ⟨d :: comp,List.mem_cons_self,List.mem_cons_of_mem _ hmem⟩
        · exact ⟨comp,List.mem_cons_of_mem _ hcomp,hmem⟩

/-- What `normalize_sub_path` decides, by the fold. -/
theorem normalizeSubPath_eq (s : Str) : normalizeSubPath s =
    if 0 ∈ s then .error .nullBytes
    else if fold s ≠ [] ∧ (fold s).head? ≠ some pardir then .ok (join (fold s))
    else .error .aboveRoot := by
  by_cases hnul : 0 ∈ s
  · rw [normalizeSubPath,if_pos hnul,if_pos hnul]
  rw [if_neg hnul]
  by_cases hin : Inside (fold s)
  · have hplain := plain_of_inside hin
    have hsplit := split_fold hin
    have hno {t : Str} {c : Str} (hc : (split t).head? = some c) (hbad : ¬Plain c) :
        join (fold s) ≠ t := by
      rintro rfl
      rw [hsplit] at hc
      exact hbad (hplain c (List.mem_of_head? hc))
    have hnil : join (fold s) ≠ [] := hno rfl fun h => h.ne_nil rfl
    have hnormal : normpath (lstrip s) = join (fold s) := by
      rw [normpath_lstrip,foldComps_lstrip,if_neg hnil]
    have habove : ¬(join (fold s) = [] ∨ join (fold s) = curdir ∨ join (fold s) = pardir ∨
        (join (fold s)).take 3 = pardir ++ [slash]) := by
      rintro (h | h | h | h)
      · exact hnil h
      · exact hno rfl (fun h => h.ne_curdir rfl) h
      · exact hno rfl (fun h => h.ne_pardir rfl) h
      · have heq := List.take_append_drop 3 (join (fold s))
        rw [h] at heq
        refine hno (c := pardir) ?_ (fun h => h.ne_pardir rfl) heq.symm
        simp [split,pardir,slash,List.splitOn_cons_eq_if_modifyHead]
    rw [if_pos hin]
    simp only [normalizeSubPath,if_neg hnul,hnormal,if_neg habove]
  · rw [if_neg hin]
    cases h : normalizeSubPath s with
    | error e =>
      simp only [normalizeSubPath,if_neg hnul] at h
      split_ifs at h
      exact h.symm
    | ok p =>
      obtain ⟨hsplit,hplain⟩ := normalizeSubPath_split h
      rw [foldComps_lstrip] at hsplit
      refine absurd ⟨?_,fun hhead => ?_⟩ hin
      · rw [← hsplit]
        exact List.splitOn_ne_nil slash p
      · rw [← hsplit] at hhead
        exact (hplain pardir (List.mem_of_head? hhead)).ne_pardir rfl

/-- A fold of plain components is a fixed point. -/
theorem fold_join {s : Str} (h : Inside (fold s)) : fold (join (fold s)) = fold s := by
  rw [fold,split_fold h,foldl_climb_plain (plain_of_inside h),List.nil_append]

/-- `normalize_sub_path` accepts the paths in the root and returns the canonical one of each. -/
theorem normalizeSubPath_canonical (s : Str) :
    ((∃ e, normalizeSubPath s = .error e) ↔
      0 ∈ s ∨ fold s = [] ∨ (fold s).head? = some pardir) ∧
    (∀ p, normalizeSubPath s = .ok p → p = join (fold s) ∧ split p = fold s ∧ fold s ≠ [] ∧
      (∀ c ∈ fold s, c ≠ [] ∧ c ≠ curdir ∧ c ≠ pardir) ∧
      p.head? ≠ some slash ∧ p.getLast? ≠ some slash ∧ normalizeSubPath p = .ok p) ∧
    ∀ t p q, normalizeSubPath s = .ok p → normalizeSubPath t = .ok q →
      (p = q ↔ fold s = fold t) := by
  have hok {s p : Str} (h : normalizeSubPath s = .ok p) :
      0 ∉ s ∧ Inside (fold s) ∧ p = join (fold s) := by
    rw [normalizeSubPath_eq] at h
    split_ifs at h with hnul hin
    exact ⟨hnul,hin,(Except.ok.inj h).symm⟩
  refine ⟨?_,fun p h => ?_,fun t p q hp hq => ?_⟩
  · rw [normalizeSubPath_eq]
    split_ifs with hnul hin
    · simp [hnul]
    · simp [hnul,hin]
    · simp only [not_and,not_not] at hin
      by_cases hnil : fold s = []
      · simp [hnil]
      · simp [hin hnil]
  · obtain ⟨hnul,hin,rfl⟩ := hok h
    have hplain := plain_of_inside hin
    have hsplit := split_fold hin
    have hempty : [] ∉ fold s := fun hmem => (hplain [] hmem).ne_nil rfl
    refine ⟨rfl,hsplit,hin.1,fun c hc => ?_,fun hhead => ?_,fun hlast => ?_,?_⟩
    · exact ⟨(hplain c hc).ne_nil,(hplain c hc).ne_curdir,(hplain c hc).ne_pardir⟩
    · obtain ⟨t,ht⟩ := List.head?_eq_some_iff.mp hhead
      rw [← hsplit,ht,split_slash] at hempty
      exact hempty List.mem_cons_self
    · obtain ⟨t,ht⟩ := List.getLast?_eq_some_iff.mp hlast
      rw [← hsplit,ht,split_concat_slash] at hempty
      simp at hempty
    · have hnul' : 0 ∉ join (fold s) := fun hmem => by
        have hnorm := normalizeSubPath_normalised h
        obtain ⟨c,hc,h0⟩ := mem_split_of_mem hmem (by decide)
        exact hnorm.nul_notMem c hc h0
      rw [normalizeSubPath_eq,if_neg hnul',fold_join hin,if_pos hin]
  · obtain ⟨_,hs,rfl⟩ := hok hp
    obtain ⟨_,ht,rfl⟩ := hok hq
    constructor
    · intro heq
      rw [← split_fold hs,heq,split_fold ht]
    · intro heq
      rw [heq]

end CodeExecutorApi
