import CodeExecutorApi.Config
import CodeExecutorApi.SubPaths

/-! `Session.get_sub_path`: the way back from a host path below the session directory to the sub_path
that it is the path of. -/
namespace CodeExecutorApi
open Python

/-- The `ValueError` of a path that is not within the session directory. -/
structure OutsideSession where
  path : Str
  workDirectory : Str
  deriving DecidableEq, Repr

def Session.getSubPath (workDirectory fullPath : Str) : Except OutsideSession Str :=
  let normalisedPath := normpath fullPath
  if (workDirectory ++ [slash]).isPrefixOf normalisedPath then
    .ok (normalisedPath.drop (workDirectory.length + 1))
  else .error ⟨normalisedPath,workDirectory⟩

namespace Session
variable {workDirectory fullPath s p : Str} {comps : List Str}

theorem getSubPath_eq_ok : getSubPath workDirectory fullPath = .ok p ↔
    normpath fullPath = workDirectory ++ slash :: p := by
  unfold getSubPath
  dsimp only
  split_ifs with hprefix
  · obtain ⟨rest,hrest⟩ := List.isPrefixOf_iff_prefix.mp hprefix
    rw [List.append_assoc,List.singleton_append] at hrest
    rw [← hrest]
    simp
  · refine iff_of_false (by simp) fun heq => hprefix (List.isPrefixOf_iff_prefix.mpr ?_)
    exact ⟨p,by rw [heq]; simp⟩

/-- Once above the root a path stays there. -/
theorem head_foldl_climb (comps stack : List Str) :
    (comps.foldl climb (pardir :: stack)).head? = some pardir := by
  induction comps generalizing stack with
  | nil => rfl
  | cons c comps ih =>
    rw [List.foldl_cons]
    have hstep : ∃ stack', climb (pardir :: stack) c = pardir :: stack' := by
      unfold climb
      split_ifs with hskip hpardir hlast
      · exact ⟨stack,rfl⟩
      · exact ⟨stack ++ [pardir],rfl⟩
      · cases stack with
        | nil => simp at hlast
        | cons d stack => exact ⟨(d :: stack).dropLast,rfl⟩
      · exact ⟨stack ++ [c],rfl⟩
    obtain ⟨stack',hstep⟩ := hstep
    rw [hstep]
    exact ih stack'

/-- A path that stays below its root leads to the same place below every directory. -/
theorem foldl_normStep_append {l stack : List Str} (base : List Str) (hstack : pardir ∉ stack)
    (hin : (l.foldl climb stack).head? ≠ some pardir) :
    l.foldl (normStep true) (base ++ stack) = base ++ l.foldl climb stack := by
  induction l generalizing stack with
  | nil => rfl
  | cons c l ih =>
    rw [List.foldl_cons,List.foldl_cons] at *
    by_cases hskip : c = [] ∨ c = curdir
    · have hclimb : climb stack c = stack := by rw [climb,if_pos hskip]
      rw [hclimb] at hin ⊢
      rw [normStep,if_pos hskip]
      exact ih hstack hin
    · by_cases hpardir : c = pardir
      · subst hpardir
        have hne : stack ≠ [] := by
          rintro rfl
          refine hin ?_
          have hclimb : climb [] pardir = pardir :: [] := by decide
          rw [hclimb]
          exact head_foldl_climb l []
        have hlast : stack.getLast? ≠ some pardir := fun h => hstack (List.mem_of_getLast? h)
        have hclimb : climb stack pardir = stack.dropLast := by
          rw [climb,if_neg hskip,if_pos rfl,if_neg (by simp [hne,hlast])]
        have hnorm : normStep true (base ++ stack) pardir = base ++ stack.dropLast := by
          rw [normStep,if_neg hskip,if_neg,List.dropLast_append_of_ne_nil hne]
          rw [List.getLast?_append_of_ne_nil _ hne]
          simp [hlast]
        rw [hclimb] at hin ⊢
        rw [hnorm]
        exact ih (fun hmem => hstack (List.dropLast_subset _ hmem)) hin
      · have hclimb : climb stack c = stack ++ [c] := by
          rw [climb,if_neg hskip,if_neg hpardir]
        have hnorm : normStep true (base ++ stack) c = base ++ (stack ++ [c]) := by
          rw [normStep,if_neg hskip,if_pos (.inl hpardir),List.append_assoc]
        rw [hclimb] at hin ⊢
        rw [hnorm]
        refine ih (fun hmem => ?_) hin
        rcases List.mem_append.mp hmem with hmem | hmem
        · exact hstack hmem
        · exact hpardir (List.mem_singleton.mp hmem).symm

/-- The host path of a sub_path leads back to its canonical form. -/
theorem getSubPath_below (hw : Rooted workDirectory comps) (hne : comps ≠ [])
    (hs : normalizeSubPath s = .ok p) :
    getSubPath workDirectory (workDirectory ++ slash :: s) = .ok p := by
  obtain ⟨hfold,hplain⟩ := normalizeSubPath_split hs
  rw [foldComps_lstrip] at hfold
  have hcanonical : p = join (fold s) := by
    rw [← hfold,join_split]
  have hin : (fold s).head? ≠ some pardir := by
    rw [← hfold]
    exact fun hhead => (hplain pardir (List.mem_of_head? hhead)).ne_pardir rfl
  have hfnil : fold s ≠ [] := by
    rw [← hfold]
    exact List.splitOn_ne_nil slash p
  have hloop : (split s).foldl (normStep true) comps = comps ++ fold s := by
    have h : (split s).foldl (normStep true) (comps ++ []) = comps ++ (split s).foldl climb [] :=
      foldl_normStep_append comps (by simp) hin
    rwa [List.append_nil] at h
  rw [getSubPath_eq_ok,hw.normpath_below hne,hloop,join_append hne hfnil,← hcanonical,
    ← List.append_assoc,← hw.initialSlashes_eq]

/-- Whatever is led back lies below the session directory. -/
theorem rooted_of_getSubPath (h : getSubPath workDirectory fullPath = .ok p)
    (hw : Rooted workDirectory comps) (hne : comps ≠ []) :
    Rooted (normpath fullPath) (comps ++ split p) := by
  have heq := getSubPath_eq_ok.mp h
  have habsolute : fullPath.head? = some slash := by
    refine head_of_normpath ?_
    rw [heq]
    exact hw.head_below p
  obtain ⟨below,hbelow⟩ := rooted_normpath habsolute
  rw [heq] at hbelow ⊢
  rwa [← hw.below hne hbelow]

/-- A path of plain components is in canonical form. -/
theorem normalizeSubPath_of_plain (hplain : ∀ c ∈ split p, Plain c) (hnul : 0 ∉ p) :
    normalizeSubPath p = .ok p := by
  have hfold : fold p = split p := by
    rw [fold,foldl_climb_plain hplain,List.nil_append]
  have hin : Inside (fold p) := by
    rw [hfold]
    exact ⟨List.splitOn_ne_nil slash p,fun hhead =>
      (hplain pardir (List.mem_of_head? hhead)).ne_pardir rfl⟩
  rw [normalizeSubPath_eq,if_neg hnul,if_pos hin,hfold,join_split]

end Session

/-- For every session root that is configured, absolute or relative to the working directory of the
server, and every session directory in it: the root means the same in every working directory; a
sub_path's host path leads back to its canonical form; what is led back lies below the session
directory and is in canonical form; and no path is led back by two sessions. -/
theorem hostPath_roundTrip (getenv : Str → Option Str) (cwd setting root name : Str)
    (hcwd : cwd.head? = some slash) (hroot : readOptionalPathEnv getenv cwd setting = .ok (some root))
    (hname : Plain name) :
    (∀ cwd', abspath cwd' root = root) ∧
    (∀ s p, normalizeSubPath s = .ok p →
      Session.getSubPath (pathJoin root name) (pathJoin root name ++ slash :: s) = .ok p) ∧
    (∀ fullPath p, Session.getSubPath (pathJoin root name) fullPath = .ok p →
      normpath fullPath = pathJoin root name ++ slash :: p ∧
      (∀ c ∈ split p, Plain c) ∧ (0 ∉ p → normalizeSubPath p = .ok p)) ∧
    ∀ fullPath p name' p', Plain name' →
      Session.getSubPath (pathJoin root name) fullPath = .ok p →
      Session.getSubPath (pathJoin root name') fullPath = .ok p' → name' = name ∧ p' = p := by
  obtain ⟨comps,hrooted⟩ : ∃ comps, Rooted root comps := by
    unfold readOptionalPathEnv at hroot
    cases hvalue : readOptionalStrEnv getenv setting with
    | error e =>
      rw [hvalue] at hroot
      cases hroot
    | ok value =>
      rw [hvalue] at hroot
      obtain ⟨v,-,rfl⟩ := Option.map_eq_some_iff.mp (Except.ok.inj hroot)
      exact rooted_abspath hcwd v
  have hw {name : Str} (hname : Plain name) : Rooted (pathJoin root name) (comps ++ [name]) :=
    hrooted.pathJoin hname
  have hne (name : Str) : comps ++ [name] ≠ [] := by simp
  refine ⟨hrooted.abspath,fun s p => Session.getSubPath_below (hw hname) (hne name),
    fun fullPath p h => ?_,fun fullPath p name' p' hname' h h' => ?_⟩
  · have hbelow := Session.rooted_of_getSubPath h (hw hname) (hne name)
    have hplain : ∀ c ∈ split p, Plain c := fun c hc => hbelow.plain c (List.mem_append_right _ hc)
    exact ⟨Session.getSubPath_eq_ok.mp h,hplain,Session.normalizeSubPath_of_plain hplain⟩
  · have hbelow := Session.rooted_of_getSubPath h (hw hname) (hne name)
    have hbelow' := Session.rooted_of_getSubPath h' (hw hname') (hne name')
    have hcomps := hbelow.foldl_split.symm.trans hbelow'.foldl_split
    rw [List.append_assoc,List.append_assoc,List.append_cancel_left_eq,List.singleton_append,
      List.singleton_append,List.cons.injEq] at hcomps
    obtain ⟨rfl,hsplit⟩ := hcomps
    have hjoin := congrArg join hsplit
    rw [join_split,join_split] at hjoin
    exact ⟨rfl,hjoin.symm⟩

/-- A root given relative to the working directory. -/
theorem hostPath_roundTrip_relative : Session.getSubPath (pathJoin (lit "/srv/data") (lit "a"))
    (pathJoin (lit "/srv/data") (lit "a") ++ slash :: lit "x/../y") = .ok (lit "y") := by
  refine (hostPath_roundTrip (fun _ => some (lit "../data/ ")) (lit "/srv/api")
    (lit "SESSION_ROOT_DIRECTORY") (lit "/srv/data") (lit "a") ?_ ?_ ?_).2.1 _ _ ?_
  · decide
  · decide
  · exact ⟨by decide,by decide,by decide,by decide⟩
  · decide

end CodeExecutorApi
