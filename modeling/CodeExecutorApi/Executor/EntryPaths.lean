import CodeExecutorApi.Executor.Walk
import CodeExecutorApi.Posix.Modes

/-! The walk of a session on the paths themselves: `scandir` joins them, and the sub_path of a file
is cut out of one. -/
namespace CodeExecutorApi
open Python Posix Machine

/-- The encoded path. Every path of the walk was decoded from bytes, so there is one. -/
def encoded (path : Str) : Bytes := (fsencode path).getD []

section Calls
variable (workDirectory : Bytes) (t : Node)

/-- The entry an absolute path leads to, for a path below the work directory. -/
def lookupAt (path : Str) : Except Errno Node :=
  if pathMax ≤ (encoded path).length then .error .enametoolong
  else
    match descend t false (fun _ _ => .error .eloop) []
      (comps ((encoded path).drop workDirectory.length)) with
    | .ok place =>
      match t.get place with
      | some n => .ok n
      | none => .error .enoent
    | .error e => .error e

def scandirAt (path : Str) : Except Errno (List (Name × Node)) :=
  match lookupAt workDirectory t path with
  | .ok (.dir a es) => if a.mode.read then .ok es else .error .eacces
  | .ok _ => .error .enotdir
  | .error e => .error e

def lstatAt (path : Str) : Except Errno StatResult := (lookupAt workDirectory t path).map Node.stat

/-- `entry.path`, of an entry of a directory. -/
def entryPath (directory : Str) (name : Name) : Str :=
  fsdecode (encoded directory ++ separator :: name.bytes)

/-- A directory of `_iter_session_files`: what it appends to `pending`, and what it yields. -/
def visitPath (directory : Str) : List Str × List (Str × StatResult) :=
  let prefixLength := (fsdecode workDirectory).length + 1
  match scandirAt workDirectory t directory with
  | .error _ => ([],[])
  | .ok entries =>
    (entries.filterMap fun entry =>
      if entry.2.isDir ∧ hidden entry.1 = false then some (entryPath directory entry.1) else none,
    entries.filterMap fun entry =>
      if entry.2.isDir then none
      else
        match lstatAt workDirectory t (entryPath directory entry.1) with
        | .error _ => none
        | .ok st =>
          if st.type = .regular then some ((entryPath directory entry.1).drop prefixLength,st)
          else none)

/-- `_iter_session_files(work_directory)`. -/
def iterSessionPaths : Option (List (Str × StatResult)) :=
  drain (visitPath workDirectory t) t.count [fsdecode workDirectory]

end Calls

section Paths
variable {workDirectory : Bytes} {t : Node} {loc : Loc}

/-- The path of a place of the session. -/
def absolutePath (workDirectory : Bytes) (loc : Loc) : Str :=
  fsdecode (workDirectory ++ relPath loc)

theorem encoded_fsdecode (b : Bytes) : encoded (fsdecode b) = b := by
  rw [encoded,fsencode_fsdecode]
  rfl

theorem entryPath_absolutePath (c : Name) :
    entryPath (absolutePath workDirectory loc) c = absolutePath workDirectory (loc ++ [c]) := by
  rw [entryPath,absolutePath,absolutePath,encoded_fsdecode,relPath,relPath,List.flatMap_append]
  simp

theorem fsdecode_relPath (b : Bytes) (loc : Loc) : fsdecode (b ++ relPath loc) =
    fsdecode b ++ loc.flatMap fun c => slash :: fsdecode c.bytes := by
  induction loc generalizing b with
  | nil => simp [relPath]
  | cons c loc ih =>
    have hassoc : b ++ relPath (c :: loc) = (b ++ separator :: c.bytes) ++ relPath loc := by
      simp [relPath]
    rw [hassoc,ih,fsdecode_append (by decide),List.flatMap_cons,List.append_assoc]
    rfl

/-- Cutting the work directory off leaves the sub_path. -/
theorem drop_absolutePath (hne : loc ≠ []) :
    (absolutePath workDirectory loc).drop ((fsdecode workDirectory).length + 1) =
      subPathOf loc := by
  have hjoin : (loc.flatMap fun c => slash :: fsdecode c.bytes) = slash :: subPathOf loc := by
    have h := intercalate_nil_cons slash (loc.map fun c => fsdecode c.bytes)
    rw [List.flatMap_map] at h
    rw [← h,subPathOf,join]
    obtain ⟨c,loc,rfl⟩ := List.exists_cons_of_ne_nil hne
    rw [List.map_cons,List.intercalate_cons_cons]
    rfl
  rw [absolutePath,fsdecode_relPath,hjoin,List.drop_append,List.drop_eq_nil_of_le (by omega)]
  simp

theorem lookupAt_absolutePath : lookupAt workDirectory t (absolutePath workDirectory loc) =
    lookupPath workDirectory.length t loc := by
  have hpath : encoded (absolutePath workDirectory loc) = workDirectory ++ relPath loc :=
    encoded_fsdecode _
  have hcomps : comps ((workDirectory ++ relPath loc).drop workDirectory.length) =
      loc.map Name.bytes := by
    rw [List.drop_left,comps_relPath]
  unfold lookupAt lookupPath
  rw [hpath,hcomps]
  by_cases hlong : pathMax ≤ workDirectory.length + (relPath loc).length
  · simp only [List.length_append,if_pos hlong]
  · cases hd : descend t false (fun _ _ => .error .eloop) [] (loc.map Name.bytes) with
    | error e => simp only [List.length_append,if_neg hlong]
    | ok place => cases hg : t.get place <;> simp only [List.length_append,if_neg hlong,hg]

theorem scandirAt_absolutePath : scandirAt workDirectory t (absolutePath workDirectory loc) =
    scandir workDirectory.length t loc := by
  unfold scandirAt scandir
  cases h : lookupPath workDirectory.length t loc with
  | error e => simp only [lookupAt_absolutePath,h]
  | ok n => cases n <;> simp only [lookupAt_absolutePath,h]

theorem lstatAt_absolutePath : lstatAt workDirectory t (absolutePath workDirectory loc) =
    lstat workDirectory.length t loc := by
  rw [lstatAt,lstat,lookupAt_absolutePath]

/-- The loop body does on paths what it does on places. -/
theorem visitPath_absolutePath (directory : Loc) :
    visitPath workDirectory t (absolutePath workDirectory directory) =
      ((visitDirectory workDirectory.length t directory).1.map (absolutePath workDirectory),
        (visitDirectory workDirectory.length t directory).2) := by
  unfold visitPath visitDirectory
  rw [scandirAt_absolutePath]
  cases scandir workDirectory.length t directory with
  | error e => rfl
  | ok entries =>
    simp only [entryPath_absolutePath,lstatAt_absolutePath,List.map_filterMap,
      drop_absolutePath (List.append_ne_nil_of_right_ne_nil directory (List.cons_ne_nil _ _))]
    refine Prod.ext (List.filterMap_congr fun entry _ => ?_) rfl
    split_ifs <;> rfl

theorem iterSessionPaths_eq (h : Stored t) :
    iterSessionPaths workDirectory t = some (iterSessionFiles workDirectory.length t) := by
  have hstart : [fsdecode workDirectory] = [[]].map (absolutePath workDirectory) := by
    simp [absolutePath,relPath]
  rw [iterSessionPaths,hstart,drain_map _ _ visitPath_absolutePath,iterSessionFiles_eq h]

end Paths

/-- A regular file whose directories are shown and can be listed, and which `lstat` finds. -/
structure Visible (workDirectory : Bytes) (t : Node) (loc : Loc) (st : StatResult) : Prop where
  file : ∃ n, t.get loc = some n ∧ n.type = .regular
  stat : lstatAt workDirectory t (absolutePath workDirectory loc) = .ok st
  listed : ∀ k c, k ++ [c] <+: loc →
    ∃ es, scandirAt workDirectory t (absolutePath workDirectory k) = .ok es
  shown : ∀ k c, k ++ [c] <+: loc → k ++ [c] ≠ loc → hidden c = false

section Visible
variable {workDirectory : Bytes} {t : Node} {loc d : Loc} {st : StatResult} {prefixLength : ℕ}

theorem exists_get_of_prefix {n : Node} {k : Loc} (hget : t.get loc = some n) (hk : k <+: loc) :
    ∃ m, t.get k = some m := by
  obtain ⟨r,rfl⟩ := hk
  rw [Node.get_append,Option.bind_eq_some_iff] at hget
  exact hget.imp fun _ h => h.1

theorem seen_iff_visible (h : Stored t) :
    Seen workDirectory.length t loc st ↔ Visible workDirectory t loc st := by
  constructor
  · intro hseen
    obtain ⟨n,hget,hst,hreg⟩ := hseen.file
    refine ⟨⟨n,hget,hreg⟩,?_,fun k c hk => ?_,hseen.shown⟩
    · rw [lstatAt_absolutePath]
      exact (lstat_ok_iff _ h hget st).mpr ⟨hst.symm,hseen.short,hseen.searched⟩
    · obtain ⟨m,hm⟩ := exists_get_of_prefix hget hk
      obtain ⟨a,es,hdir,-⟩ := Node.get_parent hm
      have hkloc := (List.prefix_append k [c]).trans hk
      have hle := length_relPath_le hkloc
      have hshort := hseen.short
      rw [scandirAt_absolutePath]
      exact ⟨es,(scandir_ok_iff _ h hdir es).mpr ⟨a,rfl,hseen.listed k c a es hk hdir,by omega,
        fun j e hj => hseen.searched j e (hj.trans hkloc)⟩⟩
  · intro hvis
    obtain ⟨n,hget,hreg⟩ := hvis.file
    have hstat := hvis.stat
    rw [lstatAt_absolutePath] at hstat
    obtain ⟨rfl,hshort,hpass⟩ := (lstat_ok_iff _ h hget st).mp hstat
    refine ⟨⟨n,hget,rfl,hreg⟩,hvis.shown,fun k c a es hk hdir => ?_,hpass,hshort⟩
    obtain ⟨bs,hbs⟩ := hvis.listed k c hk
    rw [scandirAt_absolutePath] at hbs
    obtain ⟨b,heq,hread,-⟩ := (scandir_ok_iff _ h hdir bs).mp hbs
    cases heq
    exact hread

/-- A directory that cannot be listed hides what is below it, and nothing else. -/
theorem seen_chmod {a : Attr} {es : List (Name × Node)} {mode : Mode} (now : ℤ)
    (hd : t.get d = some (.dir a es)) (hmode : mode.read = false) :
    Seen prefixLength (t.modify (Node.chmod mode now) d) loc st ↔
      Seen prefixLength t loc st ∧ ¬d <+: loc := by
  have hrem := Remoded.chmod mode now hd
  have habove {k : Loc} {c : Name} (hk : k ++ [c] <+: loc) (hno : ¬d <+: loc) : k ≠ d := by
    rintro rfl
    exact hno ((List.prefix_append k [c]).trans hk)
  constructor
  · intro hseen
    obtain ⟨n,hget,hst,hreg⟩ := hseen.file
    have hget' := (hrem.leaf_iff (by rw [Node.isDir,hreg]; rfl)).mp hget
    have hno : ¬d <+: loc := by
      rintro ⟨r,rfl⟩
      cases r with
      | nil =>
        rw [List.append_nil] at hget'
        cases hd.symm.trans hget'
        cases hreg
      | cons c r =>
        obtain ⟨b,bs,hb,-,-,hbmode⟩ := hrem.dir d a es hd
        have hread := hseen.listed d c b bs (by simp) hb
        rw [hbmode rfl,hmode] at hread
        cases hread
    refine ⟨⟨⟨n,hget',hst,hreg⟩,hseen.shown,fun k c b bs hk hdir => ?_,fun k c hk => ?_,
      hseen.short⟩,hno⟩
    · obtain ⟨b',bs',hb',-,hsame,-⟩ := hrem.dir k b bs hdir
      rw [← hsame (habove hk hno)]
      exact hseen.listed k c b' bs' hk hb'
    · obtain ⟨b',bs',hb',hsearch⟩ := hseen.searched k c hk
      obtain ⟨b,bs,hb,-,hsame,-⟩ := hrem.dir_before hb'
      rw [hsame (habove hk hno)] at hsearch
      exact ⟨b,bs,hb,hsearch⟩
  · rintro ⟨hseen,hno⟩
    obtain ⟨n,hget,hst,hreg⟩ := hseen.file
    refine ⟨⟨n,hrem.leaf loc n hget (by rw [Node.isDir,hreg]; rfl),hst,hreg⟩,hseen.shown,
      fun k c b bs hk hdir => ?_,fun k c hk => ?_,hseen.short⟩
    · obtain ⟨b',bs',hb',-,hsame,-⟩ := hrem.dir_before hdir
      rw [hsame (habove hk hno)]
      exact hseen.listed k c b' bs' hk hb'
    · obtain ⟨b,bs,hb,hsearch⟩ := hseen.searched k c hk
      obtain ⟨b',bs',hb',-,hsame,-⟩ := hrem.dir k b bs hb
      refine ⟨b',bs',hb',?_⟩
      rw [hsame (habove hk hno)]
      exact hsearch

end Visible

/-- The walk ends with every visible file, once and under its own path, and with nothing else.
Locking a directory takes what is below it from the result. -/
theorem iterSessionPaths_exact (workDirectory : Bytes) (t : SessionTree) :
    ∃ out, iterSessionPaths workDirectory t.root = some out ∧
      (∀ p st, (p,st) ∈ out ↔ ∃ loc, Visible workDirectory t.root loc st ∧ p = subPathOf loc) ∧
      (out.map Prod.fst).Nodup ∧
      (∀ k loc, k ≠ [] → loc ≠ [] → subPathOf k = subPathOf loc → k = loc) ∧
      ∀ d a es mode now, t.root.get d = some (.dir a es) → mode.read = false →
        ∃ locked,
          iterSessionPaths workDirectory (t.root.modify (Node.chmod mode now) d) = some locked ∧
            ∀ loc st, loc ≠ [] →
              ((subPathOf loc,st) ∈ locked ↔ (subPathOf loc,st) ∈ out ∧ ¬d <+: loc) := by
  have hmem {n : Node} (hn : Stored n) {loc : Loc} {st : StatResult} (hne : loc ≠ []) :
      (subPathOf loc,st) ∈ iterSessionFiles workDirectory.length n ↔
        Seen workDirectory.length n loc st := by
    rw [mem_iterSessionFiles hn]
    constructor
    · rintro ⟨k,hseen,heq⟩
      have hk : k ≠ [] := by
        rintro rfl
        obtain ⟨m,hm,-,hreg⟩ := hseen.file
        cases hm
        have hroot := hn.root
        rw [Node.isDir,hreg] at hroot
        cases hroot
      rw [subPathOf_inj hne hk heq]
      exact hseen
    · exact fun hseen => ⟨loc,hseen,rfl⟩
  refine ⟨_,iterSessionPaths_eq t.stored,fun p st => ?_,iterSessionFiles_nodup t.stored,
    fun k loc hk hloc => subPathOf_inj hk hloc,fun d a es mode now hd hmode => ?_⟩
  · rw [mem_iterSessionFiles t.stored]
    exact exists_congr fun loc => and_congr_left fun _ => seen_iff_visible t.stored
  · have hstored := (Remoded.chmod mode now hd).stored t.stored
    refine ⟨_,iterSessionPaths_eq hstored,fun loc st hne => ?_⟩
    rw [hmem hstored hne,hmem t.stored hne,seen_chmod now hd hmode]

end CodeExecutorApi
