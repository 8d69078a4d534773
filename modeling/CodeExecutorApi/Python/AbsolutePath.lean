import CodeExecutorApi.Python.PosixPath

/-! Absolute paths: what `posixpath.normpath` makes of them, `posixpath.join` and
`posixpath.abspath`. -/
namespace Python

theorem join_append {a b : List Str} (ha : a ≠ []) (hb : b ≠ []) :
    join (a ++ b) = join a ++ slash :: join b := by
  induction a with
  | nil => exact absurd rfl ha
  | cons c a ih =>
    rw [join,join,List.cons_append,List.intercalate_cons_of_ne_nil (by simp [hb])]
    cases a with
    | nil => simp [join]
    | cons d a =>
      rw [List.intercalate_cons_of_ne_nil (by simp)]
      have ih := ih (by simp)
      rw [join,join] at ih
      rw [ih]
      simp

theorem split_append (s t : Str) : split (s ++ slash :: t) = split s ++ split t :=
  List.splitOn_append_cons_self s t

/-- Leading slashes are left out by the loop of `normpath`. -/
theorem foldl_split_replicate (absolute : Bool) (i : ℕ) (s : Str) (stack : List Str) :
    (split (List.replicate i slash ++ s)).foldl (normStep absolute) stack =
      (split s).foldl (normStep absolute) stack := by
  induction i with
  | zero => rfl
  | succ i ih =>
    rw [List.replicate_succ,List.cons_append,← List.nil_append (slash :: _),split_append]
    have hnil : split [] = [[]] := List.splitOn_nil slash
    rw [hnil,List.singleton_append,List.foldl_cons,normStep,if_pos (.inl rfl),ih]

theorem foldl_normStep_plain {comps : List Str} (absolute : Bool) (h : ∀ c ∈ comps, Plain c)
    (stack : List Str) : comps.foldl (normStep absolute) stack = stack ++ comps := by
  induction comps generalizing stack with
  | nil => simp
  | cons c comps ih =>
    have hc := h c List.mem_cons_self
    rw [List.foldl_cons,normStep,if_neg (by simp [hc.ne_nil,hc.ne_curdir]),
      if_pos (.inl hc.ne_pardir),ih fun d hd => h d (List.mem_cons_of_mem _ hd)]
    simp

theorem foldl_split_join {comps : List Str} (absolute : Bool) (h : ∀ c ∈ comps, Plain c)
    (stack : List Str) : (split (join comps)).foldl (normStep absolute) stack = stack ++ comps := by
  by_cases hne : comps = []
  · subst hne
    have hnil : split (join []) = [[]] := List.splitOn_nil slash
    rw [hnil,List.foldl_cons,normStep,if_pos (.inl rfl)]
    simp
  · rw [split_join (fun c hc => (h c hc).slash_notMem) hne,foldl_normStep_plain absolute h]

/-- Of an absolute path the loop keeps plain components only. -/
theorem plain_normStep {stack : List Str} {comp : Str} (h : ∀ c ∈ stack, Plain c)
    (hs : slash ∉ comp) : ∀ c ∈ normStep true stack comp, Plain c := by
  unfold normStep
  split_ifs with hskip hkeep
  · exact h
  · intro c hc
    rcases List.mem_append.mp hc with hc | hc
    · exact h c hc
    · rw [List.mem_singleton.mp hc]
      refine ⟨fun hn => hskip (.inl hn),fun hn => hskip (.inr hn),?_,hs⟩
      rintro rfl
      rcases hkeep with hk | ⟨hk,-⟩ | hk
      · exact hk rfl
      · cases hk
      · exact (h pardir (List.mem_of_getLast? hk)).ne_pardir rfl
  · exact fun c hc => h c (List.dropLast_subset stack hc)

theorem plain_foldl {comps : List Str} (hs : ∀ c ∈ comps, slash ∉ c) {stack : List Str}
    (h : ∀ c ∈ stack, Plain c) : ∀ c ∈ comps.foldl (normStep true) stack, Plain c := by
  induction comps generalizing stack with
  | nil => exact h
  | cons c comps ih =>
    exact ih (fun d hd => hs d (List.mem_cons_of_mem _ hd))
      (plain_normStep h (hs c List.mem_cons_self))

section Join
variable {comps : List Str}

theorem nil_notMem_split_join (hs : ∀ c ∈ comps, slash ∉ c) (hn : [] ∉ comps) (hne : comps ≠ []) :
    [] ∉ split (join comps) := by
  rwa [split_join hs hne]

/-- Components joined neither begin nor end with a slash. -/
theorem head_join (hs : ∀ c ∈ comps, slash ∉ c) (hn : [] ∉ comps) :
    (join comps).head? ≠ some slash := by
  intro hhead
  obtain ⟨s,hjoin⟩ := List.head?_eq_some_iff.mp hhead
  have hne : comps ≠ [] := by
    rintro rfl
    cases hjoin
  refine nil_notMem_split_join hs hn hne ?_
  rw [hjoin,← List.nil_append (slash :: s),split_append,split,List.splitOn_nil]
  simp

theorem getLast_join (hs : ∀ c ∈ comps, slash ∉ c) (hn : [] ∉ comps) :
    (join comps).getLast? ≠ some slash := by
  intro hlast
  obtain ⟨s,hjoin⟩ := List.getLast?_eq_some_iff.mp hlast
  have hne : comps ≠ [] := by
    rintro rfl
    simp [join] at hjoin
  refine nil_notMem_split_join hs hn hne ?_
  rw [hjoin,split_append,split,split,List.splitOn_nil]
  simp

theorem join_ne_nil (hs : ∀ c ∈ comps, slash ∉ c) (hn : [] ∉ comps) (hne : comps ≠ []) :
    join comps ≠ [] := by
  intro hjoin
  refine nil_notMem_split_join hs hn hne ?_
  rw [hjoin,split,List.splitOn_nil]
  simp

end Join

/-- An absolute path in normal form. `comps` are its components. -/
structure Rooted (path : Str) (comps : List Str) : Prop where
  plain : ∀ c ∈ comps, Plain c
  shape : path = slash :: join comps ∨ path = slash :: slash :: join comps

theorem rooted_iff {path : Str} {comps : List Str} : Rooted path comps ↔ (∀ c ∈ comps, Plain c) ∧
    ∃ i, (i = 1 ∨ i = 2) ∧ path = List.replicate i slash ++ join comps := by
  constructor
  · rintro ⟨hplain,h | h⟩
    · exact ⟨hplain,1,.inl rfl,h⟩
    · exact ⟨hplain,2,.inr rfl,h⟩
  · rintro ⟨hplain,i,rfl | rfl,h⟩
    · exact ⟨hplain,.inl h⟩
    · exact ⟨hplain,.inr h⟩

namespace Rooted
variable {path : Str} {comps : List Str}

theorem slash_notMem (h : Rooted path comps) : ∀ c ∈ comps, slash ∉ c :=
  fun c hc => (h.plain c hc).slash_notMem

theorem nil_notMem (h : Rooted path comps) : [] ∉ comps := fun hmem => (h.plain [] hmem).ne_nil rfl

theorem head (h : Rooted path comps) : path.head? = some slash := by
  rcases h.shape with hp | hp
  · rw [hp]
    rfl
  · rw [hp]
    rfl

end Rooted

theorem initialSlashes_replicate {i : ℕ} {s : Str} (hi : i = 1 ∨ i = 2)
    (hs : s.head? ≠ some slash) : initialSlashes (List.replicate i slash ++ s) = i := by
  rcases hi with rfl | rfl
  all_goals
    cases s with
    | nil => decide
    | cons c s =>
      have hc : c ≠ slash := by simpa using hs
      simp [initialSlashes,List.replicate,hc]

theorem initialSlashes_absolute {path : Str} (h : path.head? = some slash) :
    initialSlashes path = 1 ∨ initialSlashes path = 2 := by
  rw [initialSlashes,if_pos h]
  split_ifs <;> simp

/-- `normpath` of any absolute path. -/
theorem normpath_absolute {path : Str} (h : path.head? = some slash) : normpath path =
    List.replicate (initialSlashes path) slash ++ join ((split path).foldl (normStep true) []) := by
  have hne : path ≠ [] := by
    rintro rfl
    cases h
  have hpos : initialSlashes path ≠ 0 := by
    have := initialSlashes_absolute h
    omega
  have hnormed (s : Str) : List.replicate (initialSlashes path) slash ++ s ≠ [] := by
    simp [hpos]
  simp only [normpath,if_neg hne,ne_eq,hpos,not_false_eq_true,decide_true,if_neg (hnormed _)]

theorem rooted_normpath {path : Str} (h : path.head? = some slash) :
    ∃ comps, Rooted (normpath path) comps := by
  refine ⟨_,rooted_iff.mpr ⟨?_,_,initialSlashes_absolute h,normpath_absolute h⟩⟩
  exact plain_foldl (fun c hc => slash_notMem_of_mem_split hc) (by simp)

/-- Only an absolute path is absolute in normal form. -/
theorem head_of_normpath {path : Str} (h : (normpath path).head? = some slash) :
    path.head? = some slash := by
  by_contra hhead
  have hzero : initialSlashes path = 0 := if_neg hhead
  have hcurdir : curdir.head? ≠ some slash := by decide
  by_cases hnil : path = []
  · rw [normpath,if_pos hnil] at h
    exact hcurdir h
  have hnormed : normpath path =
      if join (foldComps path) = [] then curdir else join (foldComps path) := by
    simp only [normpath,if_neg hnil,hzero,List.replicate_zero,List.nil_append]
    rfl
  rw [hnormed] at h
  split_ifs at h
  · exact hcurdir h
  · obtain ⟨n,plain,hshape,hplain⟩ := (foldComps_folded path).shape
    have hcomp (c : Str) (hc : c ∈ foldComps path) : c ≠ [] ∧ slash ∉ c := by
      rw [hshape] at hc
      rcases List.mem_append.mp hc with hc | hc
      · rw [List.eq_of_mem_replicate hc]
        decide
      · exact ⟨(hplain c hc).ne_nil,(hplain c hc).slash_notMem⟩
    exact head_join (fun c hc => (hcomp c hc).2) (fun hmem => (hcomp [] hmem).1 rfl) h

namespace Rooted
variable {path : Str} {comps : List Str}

/-- The components are determined by the path. -/
theorem foldl_split (h : Rooted path comps) : (split path).foldl (normStep true) [] = comps := by
  obtain ⟨hplain,i,-,rfl⟩ := rooted_iff.mp h
  rw [foldl_split_replicate,foldl_split_join true hplain,List.nil_append]

theorem initialSlashes_eq (h : Rooted path comps) :
    path = List.replicate (initialSlashes path) slash ++ join comps := by
  obtain ⟨-,i,hi,hpath⟩ := rooted_iff.mp h
  have hslashes : initialSlashes path = i := by
    rw [hpath]
    exact initialSlashes_replicate hi (head_join h.slash_notMem h.nil_notMem)
  rwa [hslashes]

/-- `normpath` leaves a path in normal form as it is. -/
theorem normpath (h : Rooted path comps) : normpath path = path := by
  rw [normpath_absolute h.head,h.foldl_split]
  exact h.initialSlashes_eq.symm

/-- What is below a path in normal form begins with as many slashes. -/
theorem initialSlashes_below (h : Rooted path comps) (hne : comps ≠ []) (s : Str) :
    initialSlashes (path ++ slash :: s) = initialSlashes path := by
  obtain ⟨-,i,hi,rfl⟩ := rooted_iff.mp h
  have hhead := head_join h.slash_notMem h.nil_notMem
  have hbelow : (join comps ++ slash :: s).head? ≠ some slash := by
    rwa [List.head?_append_of_ne_nil _ (join_ne_nil h.slash_notMem h.nil_notMem hne)]
  rw [List.append_assoc,initialSlashes_replicate hi hbelow,initialSlashes_replicate hi hhead]

theorem head_below (h : Rooted path comps) (s : Str) :
    (path ++ slash :: s).head? = some slash := by
  obtain ⟨t,ht⟩ := List.head?_eq_some_iff.mp h.head
  rw [ht]
  rfl

/-- A path below one in normal form: the loop goes on from its components. -/
theorem normpath_below (h : Rooted path comps) (hne : comps ≠ []) (s : Str) :
    Python.normpath (path ++ slash :: s) = List.replicate (initialSlashes path) slash ++
      join ((split s).foldl (normStep true) comps) := by
  rw [normpath_absolute (h.head_below s),h.initialSlashes_below hne,split_append,List.foldl_append,
    h.foldl_split]

/-- The components of a path in normal form that is below another one. -/
theorem below {s : Str} {below : List Str} (h : Rooted path comps) (hne : comps ≠ [])
    (hbelow : Rooted (path ++ slash :: s) below) : below = comps ++ split s := by
  have heq := hbelow.initialSlashes_eq
  have hpath := h.initialSlashes_eq
  rw [h.initialSlashes_below hne] at heq
  generalize initialSlashes path = i at heq hpath
  rw [hpath,List.append_assoc] at heq
  have hjoin := List.append_cancel_left heq
  have hbne : below ≠ [] := by
    rintro rfl
    simp [join] at hjoin
  have hsplit := congrArg split hjoin
  rw [split_append,split_join h.slash_notMem hne,split_join hbelow.slash_notMem hbne] at hsplit
  exact hsplit.symm

end Rooted

/-- `os.path.join` of two paths. -/
def pathJoin (a b : Str) : Str :=
  if b.head? = some slash then b
  else if a = [] ∨ a.getLast? = some slash then a ++ b
  else a ++ slash :: b

/-- `os.path.abspath` in the working directory `cwd`. -/
def abspath (cwd path : Str) : Str :=
  normpath (if path.head? = some slash then path else pathJoin cwd path)

theorem rooted_abspath {cwd : Str} (hcwd : cwd.head? = some slash) (path : Str) :
    ∃ comps, Rooted (abspath cwd path) comps := by
  refine rooted_normpath ?_
  split_ifs with hpath
  · exact hpath
  · have hne : cwd ≠ [] := by
      rintro rfl
      cases hcwd
    unfold pathJoin
    rw [if_neg hpath]
    split_ifs
    · rwa [List.head?_append_of_ne_nil _ hne]
    · rwa [List.head?_append_of_ne_nil _ hne]

/-- A path that was made absolute means the same in every working directory. -/
theorem Rooted.abspath {path : Str} {comps : List Str} (h : Rooted path comps) (cwd : Str) :
    abspath cwd path = path := by
  rw [Python.abspath,if_pos h.head,h.normpath]

/-- An entry of a directory. -/
theorem Rooted.pathJoin {path name : Str} {comps : List Str} (h : Rooted path comps)
    (hname : Plain name) : Rooted (pathJoin path name) (comps ++ [name]) := by
  have hplain : ∀ c ∈ comps ++ [name], Plain c := by
    intro c hc
    rcases List.mem_append.mp hc with hc | hc
    · exact h.plain c hc
    · rw [List.mem_singleton.mp hc]
      exact hname
  have hhead : name.head? ≠ some slash := fun hs => hname.slash_notMem (List.mem_of_head? hs)
  refine ⟨hplain,?_⟩
  unfold Python.pathJoin
  rw [if_neg hhead]
  by_cases hne : comps = []
  · subst hne
    have hsingle : join ([] ++ [name]) = name := by simp [join]
    rw [hsingle]
    rcases h.shape with hp | hp
    · rw [hp,if_pos (.inr rfl)]
      exact .inl rfl
    · rw [hp,if_pos (.inr rfl)]
      exact .inr rfl
  · have hsingle : join [name] = name := by simp [join]
    rw [join_append hne (by simp),hsingle]
    obtain ⟨pre,hpre⟩ : ∃ pre, path = pre ++ join comps := by
      rcases h.shape with hp | hp
      · exact ⟨[slash],hp⟩
      · exact ⟨[slash,slash],hp⟩
    have hlast : ¬(path = [] ∨ path.getLast? = some slash) := by
      rw [hpre,List.getLast?_append_of_ne_nil _ (join_ne_nil h.slash_notMem h.nil_notMem hne)]
      rintro (h' | h')
      · exact join_ne_nil h.slash_notMem h.nil_notMem hne (List.append_eq_nil_iff.mp h').2
      · exact getLast_join h.slash_notMem h.nil_notMem h'
    rw [if_neg hlast]
    rcases h.shape with hp | hp
    · rw [hp]
      exact .inl rfl
    · rw [hp]
      exact .inr rfl

end Python
