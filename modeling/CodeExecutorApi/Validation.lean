import Mathlib.Data.List.TakeWhile
import CodeExecutorApi.Python.PosixPath

/-! validation.py: the sub_paths a client may name, and the fields of a request to execute code. -/
namespace CodeExecutorApi
open Python

/-- The message of a `ValidationError`, which is answered with status 400. -/
inductive InvalidPath
  | nullBytes
  | aboveRoot
  deriving DecidableEq, Repr

def InvalidPath.message : InvalidPath → String
  | .nullBytes => "Invalid file path: null bytes are not allowed"
  | .aboveRoot => "Invalid file path: cannot access a path higher than the root"

def normalizeSubPath (filename : Str) : Except InvalidPath Str :=
  if 0 ∈ filename then .error .nullBytes
  else
    let normalized := normpath (lstrip filename)
    if normalized = [] ∨ normalized = curdir ∨ normalized = pardir ∨
        normalized.take 3 = pardir ++ [slash] then
      .error .aboveRoot
    else .ok normalized

/-- What else makes a request to execute code invalid. -/
inductive InvalidField
  | missingLanguage
  | longLanguage
  | unsupportedLanguage (language : Str)
  | missingCode
  | nullBytes
  | encoding
  | malformed
  | notAFile
  deriving DecidableEq, Repr

def InvalidField.message : InvalidField → Str
  | .missingLanguage => lit "Missing 'language' field"
  | .longLanguage => lit "Language is unsupported"
  | .unsupportedLanguage language => lit "Language " ++ language ++ lit " is unsupported"
  | .missingCode => lit "Missing 'code' field"
  | .nullBytes => lit "Null bytes are not allowed in code"
  | .encoding => lit "Multipart text fields must use a valid character encoding"
  | .malformed => lit "Request body is not valid multipart/form-data"
  | .notAFile => lit "Multipart parts must be files"

/-- The keys of `LANGUAGES`. -/
def languages : List Str :=
  [lit "python",lit "bash",lit "javascript",lit "typescript",lit "c",lit "cpp",lit "java",
    lit "csharp",lit "rust"]

def validateLanguage : Option Str → Except InvalidField Str
  | none => .error .missingLanguage
  | some language =>
    if language ∉ languages then .error (.unsupportedLanguage language) else .ok language

def validateCode : Option Str → Except InvalidField Str
  | none => .error .missingCode
  | some code => if 0 ∈ code then .error .nullBytes else .ok code

/-- What `normalize_sub_path` gives back: plain components without NUL, joined by slashes. -/
structure Normalised (p : Str) : Prop where
  plain : ∀ c ∈ split p, Plain c
  nul_notMem : ∀ c ∈ split p, 0 ∉ c

theorem normalizeSubPath_split {filename p : Str} (h : normalizeSubPath filename = .ok p) :
    split p = foldComps (lstrip filename) ∧ ∀ c ∈ split p, Plain c := by
  simp only [normalizeSubPath] at h
  split_ifs at h with hnul habove
  obtain ⟨n,plain,hshape,hplain⟩ := (foldComps_folded (lstrip filename)).shape
  rw [normpath_lstrip] at h habove
  by_cases hjoin : join (foldComps (lstrip filename)) = []
  · rw [if_pos hjoin] at habove
    exact absurd (.inr (.inl rfl)) habove
  rw [if_neg hjoin] at h habove
  cases h
  -- a `..` that is left over would be the first component
  have hn : n = 0 := by
    cases n with
    | zero => rfl
    | succ n =>
      refine absurd ?_ habove
      rw [hshape,List.replicate_succ,List.cons_append]
      by_cases hrest : List.replicate n pardir ++ plain = []
      · rw [hrest]
        exact .inr (.inr (.inl (List.intercalate_singleton)))
      · refine .inr (.inr (.inr ?_))
        rw [join,List.intercalate_cons_of_ne_nil hrest]
        rfl
  subst n
  rw [List.replicate_zero,List.nil_append] at hshape
  have hne : plain ≠ [] := by
    rintro rfl
    rw [hshape] at hjoin
    exact hjoin rfl
  have hsplit : split (join (foldComps (lstrip filename))) = foldComps (lstrip filename) := by
    rw [hshape]
    exact split_join (fun c hc => (hplain c hc).slash_notMem) hne
  refine ⟨hsplit,fun c hc => ?_⟩
  rw [hsplit,hshape] at hc
  exact hplain c hc

theorem normalizeSubPath_normalised {filename p : Str} (h : normalizeSubPath filename = .ok p) :
    Normalised p := by
  obtain ⟨hsplit,hplain⟩ := normalizeSubPath_split h
  refine ⟨hplain,fun c hc h0 => ?_⟩
  rw [hsplit] at hc
  have hmem : 0 ∈ filename :=
    List.dropWhile_subset _ (mem_of_mem_split (mem_foldComps hc) h0)
  rw [normalizeSubPath,if_pos hmem] at h
  cases h

theorem normalizeSubPath_ne_nil {filename p : Str} (h : normalizeSubPath filename = .ok p) :
    p ≠ [] := by
  simp only [normalizeSubPath] at h
  split_ifs at h with hnul habove
  cases h
  exact fun hnil => habove (.inl hnil)

/-- Slashes alone name the root, which is refused. -/
theorem strip_ne_nil {filename p : Str} (h : normalizeSubPath filename = .ok p) :
    strip filename ≠ [] := by
  intro hstrip
  have hall : ∀ c ∈ lstrip filename, c = slash := by
    intro c hc
    have hdrop := List.dropWhile_eq_nil_iff.mp (List.reverse_eq_nil_iff.mp hstrip)
    simpa using hdrop c (List.mem_reverse.mpr hc)
  have hnil : lstrip filename = [] := by
    cases hl : lstrip filename with
    | nil => rfl
    | cons c s =>
      have hhead := List.head?_dropWhile_not (fun c => decide (c = slash)) filename
      rw [← lstrip,hl] at hhead
      have hc := hall c (by rw [hl]; exact List.mem_cons_self)
      simp [hc] at hhead
  have hdot : normpath (lstrip filename) = curdir := by rw [hnil]; rfl
  simp only [normalizeSubPath] at h
  split_ifs at h with hnul habove
  exact habove (.inr (.inl hdot))

end CodeExecutorApi
