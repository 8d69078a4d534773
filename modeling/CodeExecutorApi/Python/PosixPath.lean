import CodeExecutorApi.Python.Str

/-! The lexical path functions of Python: splitting at slashes and `posixpath.normpath`. -/
namespace Python

def slash : CodePoint := 0x2F

def curdir : Str := [0x2E]

def pardir : Str := [0x2E,0x2E]

/-- `s.split("/")`. -/
def split (s : Str) : List Str := s.splitOn slash

/-- `"/".join(comps)`. -/
def join (comps : List Str) : Str := [slash].intercalate comps

/-- `s.lstrip("/")`. -/
def lstrip (s : Str) : Str := s.dropWhile (· = slash)

/-- `s.strip("/")`. -/
def strip (s : Str) : Str := ((lstrip s).reverse.dropWhile (· = slash)).reverse

/-- POSIX keeps exactly two leading slashes apart from one and from more. -/
def initialSlashes (path : Str) : ℕ :=
  if path.head? = some slash then
    if path.take 3 = [slash,slash,slash] ∨ path.take 2 ≠ [slash,slash] then 1 else 2
  else 0

/-- One turn of the loop of `normpath` over the components. -/
def normStep (absolute : Bool) (newComps : List Str) (comp : Str) : List Str :=
  if comp = [] ∨ comp = curdir then newComps
  else if comp ≠ pardir ∨ (absolute = false ∧ newComps = []) ∨ newComps.getLast? = some pardir then
    newComps ++ [comp]
  else newComps.dropLast

/-- `posixpath.normpath`. -/
def normpath (path : Str) : Str :=
  if path = [] then curdir
  else
    let initial := initialSlashes path
    let comps := (split path).foldl (normStep (initial ≠ 0)) []
    let normed := List.replicate initial slash ++ join comps
    if normed = [] then curdir else normed

/-- A component that names an entry of the directory it is looked up in. -/
structure Plain (comp : Str) : Prop where
  ne_nil : comp ≠ []
  ne_curdir : comp ≠ curdir
  ne_pardir : comp ≠ pardir
  slash_notMem : slash ∉ comp

theorem slash_notMem_of_mem_split {s comp : Str} (h : comp ∈ split s) : slash ∉ comp := by
  induction s generalizing comp with
  | nil =>
    rw [split,List.splitOn_nil,List.mem_singleton] at h
    simp [h]
  | cons c s ih =>
    rw [split,List.splitOn_cons_eq_if_modifyHead] at h
    split_ifs at h with hc
    · rcases List.mem_cons.mp h with rfl | h
      · simp
      · exact ih h
    · have hc' : slash ≠ c := fun hs => hc (by simp [hs])
      obtain ⟨p,ps,hp⟩ := List.exists_cons_of_ne_nil (List.splitOn_ne_nil slash s)
      rw [hp,List.modifyHead_cons] at h
      rcases List.mem_cons.mp h with rfl | h
      · have hslash : slash ∉ p := ih (by rw [split,hp]; exact List.mem_cons_self)
        simp [hc',hslash]
      · exact ih (by rw [split,hp]; exact List.mem_cons_of_mem _ h)

@[simp] theorem join_split (s : Str) : join (split s) = s := List.intercalate_splitOn slash

theorem split_join {comps : List Str} (h : ∀ c ∈ comps, slash ∉ c) (hne : comps ≠ []) :
    split (join comps) = comps := List.splitOn_intercalate slash h hne

theorem mem_of_mem_split {s comp : Str} {c : CodePoint} (h : comp ∈ split s) (hc : c ∈ comp) :
    c ∈ s := by
  rw [← join_split s]
  generalize split s = comps at h
  induction comps with
  | nil => cases h
  | cons d comps ih =>
    cases comps with
    | nil =>
      rw [List.mem_singleton] at h
      subst h
      simpa [join] using hc
    | cons e comps =>
      rw [join,List.intercalate_cons_cons]
      rcases List.mem_cons.mp h with rfl | h
      · exact List.mem_append_left _ (List.mem_append_left _ hc)
      · exact List.mem_append_right _ (ih h)

/-- The components of a relative path, once folded: some `..` and then plain names. -/
structure Folded (comps : List Str) : Prop where
  shape : ∃ n plain, comps = List.replicate n pardir ++ plain ∧ ∀ c ∈ plain, Plain c

theorem Folded.step {comps : List Str} {comp : Str} (h : Folded comps) (hs : slash ∉ comp) :
    Folded (normStep false comps comp) := by
  obtain ⟨n,plain,rfl,hplain⟩ := h.shape
  unfold normStep
  split_ifs with hskip hkeep
  · exact h
  · by_cases hcomp : comp = pardir
    · -- `..` stays only if there is nothing to pop
      subst comp
      have hnil : plain = [] := by
        rcases hkeep with hk | ⟨_,hk⟩ | hk
        · exact absurd rfl hk
        · exact (List.append_eq_nil_iff.mp hk).2
        · by_contra hne
          obtain ⟨l,c,rfl⟩ := (List.eq_nil_or_concat plain).resolve_left hne
          rw [List.concat_eq_append,← List.append_assoc,List.getLast?_concat] at hk
          exact (hplain c (by simp)).ne_pardir (Option.some.inj hk)
      subst plain
      refine ⟨n+1,[],?_,by simp⟩
      rw [List.append_nil,List.append_nil,List.replicate_succ']
    · refine ⟨n,plain ++ [comp],by rw [List.append_assoc],?_⟩
      intro c hc
      rcases List.mem_append.mp hc with hc | hc
      · exact hplain c hc
      · rw [List.mem_singleton.mp hc]
        exact ⟨fun hn => hskip (.inl hn),fun hn => hskip (.inr hn),hcomp,hs⟩
  · have hne : plain ≠ [] := by
      rintro rfl
      apply hkeep
      rw [List.append_nil]
      cases n with
      | zero => exact .inr (.inl ⟨rfl,rfl⟩)
      | succ n =>
        refine .inr (.inr ?_)
        rw [List.replicate_succ',List.getLast?_concat]
    refine ⟨n,plain.dropLast,List.dropLast_append_of_ne_nil hne,?_⟩
    intro c hc
    exact hplain c (List.dropLast_subset plain hc)

/-- The fold of the components of a relative path. -/
def foldComps (path : Str) : List Str := (split path).foldl (normStep false) []

theorem foldComps_folded (path : Str) : Folded (foldComps path) := by
  have hfold (l : List Str) (hl : ∀ c ∈ l, slash ∉ c) (comps : List Str) (h : Folded comps) :
      Folded (l.foldl (normStep false) comps) := by
    induction l generalizing comps with
    | nil => exact h
    | cons c l ih =>
      rw [List.foldl_cons]
      exact ih (fun d hd => hl d (List.mem_cons_of_mem _ hd)) _
        (h.step (hl c List.mem_cons_self))
  exact hfold _ (fun c hc => slash_notMem_of_mem_split hc) [] ⟨0,[],rfl,by simp⟩

theorem mem_foldComps {path comp : Str} (h : comp ∈ foldComps path) : comp ∈ split path := by
  have hfold (l comps : List Str) (h : comp ∈ l.foldl (normStep false) comps) :
      comp ∈ comps ∨ comp ∈ l := by
    induction l generalizing comps with
    | nil => exact .inl h
    | cons c l ih =>
      rcases ih _ h with hc | hc
      · unfold normStep at hc
        split_ifs at hc
        · exact .inl hc
        · rcases List.mem_append.mp hc with hc | hc
          · exact .inl hc
          · exact .inr (by rw [List.mem_singleton.mp hc]; exact List.mem_cons_self)
        · exact .inl (List.dropLast_subset _ hc)
      · exact .inr (List.mem_cons_of_mem _ hc)
  exact (hfold _ [] h).resolve_left List.not_mem_nil

theorem initialSlashes_lstrip (s : Str) : initialSlashes (lstrip s) = 0 := by
  have hhead : (lstrip s).head? ≠ some slash := by
    intro h
    have hnot := List.head?_dropWhile_not (fun c => decide (c = slash)) s
    rw [← lstrip,h] at hnot
    simp at hnot
  rw [initialSlashes,if_neg hhead]

theorem normpath_lstrip (s : Str) : normpath (lstrip s) =
    if join (foldComps (lstrip s)) = [] then curdir else join (foldComps (lstrip s)) := by
  unfold normpath
  rw [initialSlashes_lstrip]
  by_cases h : lstrip s = []
  · rw [if_pos h,h]
    rfl
  · rw [if_neg h]
    rfl

example : normpath [0x61,0x2F,0x2F,0x2E,0x2F,0x62,0x2F,0x2E,0x2E] = [0x61] := by decide

end Python
