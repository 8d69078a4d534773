import CodeExecutorApi.Executor.Walk
import CodeExecutorApi.Posix.Owner

/-! Removal of a session tree that executed code has locked: every directory is opened up before the
walk comes to it, and then everything is removed. -/
namespace CodeExecutorApi
open Python Posix Machine

/-- Mode 0o700. -/
abbrev openMode : Mode := ⟨true,true,true⟩

/-- An entry that `os.fwalk` counts among the directory names: links to directories are. -/
def listedAsDirectory (w : World) (directory : Loc) (entry : Name × Node) : Bool :=
  match entry.2 with
  | .dir .. => true
  | .symlink .. =>
    match namei w.root true w.env.maxLinks directory entry.1.bytes with
    | .ok loc => (w.root.get loc).any Node.isDir
    | .error _ => false
  | .file .. | .special .. => false

/-- The directory names that `os.fwalk` gives for an open directory. -/
def directoryNames (w : World) (directory : Loc) : List Name :=
  match w.root.get directory with
  | some n => (n.entries.filter (listedAsDirectory w directory)).map Prod.fst
  | none => []

/-- The body of the loop of `_remove_tree` over the directory names. -/
def unlockEntry (directoryFd : Loc) (w : World) (name : Name) : World :=
  match w.lstatFrom directoryFd name.bytes with
  | .ok st =>
    if st.type = .directory then
      match w.chmodFrom directoryFd name.bytes openMode with
      | .ok v => v
      | .error _ => w
    else w
  | .error _ => w

/-- The walk goes on into a directory that can be opened, and skips any other name. -/
def walkInto (walk : Loc → World → World) (directory : Loc) (w : World) (name : Name) : World :=
  match w.opendirFrom directory name.bytes with
  | .ok child => walk child w
  | .error _ => w

/-- `for _, directory_names, _, directory_fd in os.fwalk(path)`, from an open directory on. The loop
body sees the names of a directory before the walk goes on into them. -/
def fwalkUnlock : ℕ → Loc → World → World
  | 0, _, w => w
  | n+1, directory, w =>
    let names := directoryNames w directory
    names.foldl (walkInto (fwalkUnlock n) directory) (names.foldl (unlockEntry directory) w)

/-- One turn of the loop of `shutil.rmtree` over the entries of an open directory, given what removes
the entries of a directory below it. -/
def removeEntry (removeBelow : Loc → World → Except Errno World) (directory : Loc) (w : World)
    (entry : Name × Node) : Except Errno World :=
  if entry.2.isDir then do
    let child ← w.opendirFrom directory entry.1.bytes
    let v ← removeBelow child w
    v.rmdirFrom directory entry.1.bytes
  else w.unlinkFrom directory entry.1.bytes

/-- What `shutil.rmtree` does with an open directory. No tree is as deep as the first number. -/
def removeEntries : ℕ → Loc → World → Except Errno World
  | 0, _, _ => .error .eloop
  | n+1, directory, w =>
    match w.root.get directory with
    | some m => m.entries.foldlM (removeEntry (removeEntries n) directory) w
    | none => .error .enoent

/-- `shutil.rmtree` -/
def rmtree (depth : ℕ) (path : Bytes) (w : World) : Except Errno World := do
  let top ← w.opendirFrom [] path
  let v ← removeEntries depth top w
  v.rmdirFrom [] path

/-- `_remove_tree` -/
def removeTree (path : Bytes) (w : World) : Except Errno World := do
  let depth := w.root.count
  let v :=
    match w.chmodFrom [] path openMode with
    | .ok v => v
    | .error _ => w
  let top ← v.opendirFrom [] path
  rmtree depth path (fwalkUnlock depth top v)

/-- The directories that the walk may change: those below `k`, which it opens. -/
def Unlocks (P : Loc → Prop) (loc : Loc) (a a' : Attr) : Prop :=
  a' = a ∨ P loc ∧ a'.mode = openMode

/-- Nothing is as far below a place as `n` names. -/
def Shallow (n : ℕ) (t : Node) (k : Loc) : Prop := ∀ r, n ≤ r.length → t.get (k ++ r) = none

section Unlock
variable {P Q : Loc → Prop} {t t' t'' : Node} {k loc : Loc} {n : ℕ} {w v : World}

theorem unlocks_trans {loc : Loc} {a b c : Attr} (h : Unlocks P loc a b) (h' : Unlocks P loc b c) :
    Unlocks P loc a c := by
  rcases h' with rfl | h'
  · exact h
  · exact .inr h'

/-- Modes below a place were opened, and nothing else changed. -/
abbrev Opens (P : Loc → Prop) (t t' : Node) : Prop := Remoded (Unlocks P) t t'

theorem opens_refl (P : Loc → Prop) (t : Node) : Opens P t t := .refl (fun _ _ => .inl rfl) t

theorem Opens.trans (h : Opens P t t') (h' : Opens P t' t'') : Opens P t t'' :=
  Remoded.trans (fun _ _ _ _ => unlocks_trans) h h'

theorem Opens.mono (h : Opens P t t') (hP : ∀ loc, P loc → Q loc) : Opens Q t t' :=
  Remoded.mono h fun loc _ _ ha => ha.imp_right fun ha => ⟨hP loc ha.1,ha.2⟩

/-- The directories at the places in `P` are open. -/
def AllOpen (P : Loc → Prop) (t : Node) : Prop :=
  ∀ loc a es, P loc → t.get loc = some (.dir a es) → a.mode = openMode

/-- What is open stays open. -/
theorem AllOpen.kept (h : AllOpen P t) (hopens : Opens Q t t') : AllOpen P t' := by
  intro loc a' es' hP hget
  obtain ⟨a,es,hget',-,ha⟩ := hopens.dir_before hget
  rcases ha with rfl | ⟨-,ha⟩
  · exact h loc a' es hP hget'
  · exact ha

theorem Shallow.kept (h : Shallow n t k) (hopens : Opens Q t t') : Shallow n t' k :=
  fun r hr => hopens.none _ (h r hr)

theorem Shallow.child (h : Shallow (n+1) t k) (c : Name) : Shallow n t (k ++ [c]) := by
  intro r hr
  rw [List.append_assoc]
  apply h
  rw [List.singleton_append,List.length_cons]
  omega

/-- A directory that the process may do everything with. -/
def OpenDir (t : Node) (k : Loc) : Prop := ∃ a es, t.get k = some (.dir a es) ∧ a.mode = openMode

theorem OpenDir.kept (h : OpenDir t k) (hopens : Opens Q t t') : OpenDir t' k := by
  obtain ⟨a,es,hget,hmode⟩ := h
  obtain ⟨a',es',hget',-,ha⟩ := hopens.dir k a es hget
  refine ⟨a',es',hget',?_⟩
  rcases ha with rfl | ⟨-,ha⟩
  · exact hmode
  · exact ha

/-- There are the same entries as before. -/
theorem Opens.exists_get (h : Opens Q t t') {n : Node} (hget : t.get loc = some n) :
    ∃ m, t'.get loc = some m := by
  cases n with
  | dir a es =>
    obtain ⟨a',es',hget',-,-⟩ := h.dir loc a es hget
    exact ⟨_,hget'⟩
  | file | symlink | special => exact ⟨_,h.leaf loc _ hget rfl⟩

/-- One directory name: the entry is opened up if it is a directory. -/
theorem unlockEntry_opens {c : Name} {n : Node} (hk : OpenDir w.root k)
    (hc : c.bytes.length ≤ nameMax) (hget : w.root.get (k ++ [c]) = some n) :
    (unlockEntry k w c).env = w.env ∧
      Opens (· = k ++ [c]) w.root (unlockEntry k w c).root ∧
      AllOpen (· = k ++ [c]) (unlockEntry k w c).root := by
  obtain ⟨a,es,hdir,hmode⟩ := hk
  have hsearch : a.mode.search = true := by rw [hmode]
  have hstat := World.lstatFrom_eq
    (namei_entry false w.env.maxLinks hdir hsearch hc hget (by simp)) hget
  by_cases hn : n.isDir = true
  · obtain ⟨b,bs,rfl⟩ := Node.eq_dir hn
    have hchmod := World.chmodFrom_eq openMode
      (namei_entry true w.env.maxLinks hdir hsearch hc hget (by simp [Node.type])) hget
    have hv : unlockEntry k w c =
        w.update (k ++ [c]) (Node.chmod openMode (w.env.now w.calls)) := by
      unfold unlockEntry
      rw [hstat,hchmod]
      rfl
    have hrem := Remoded.chmod openMode (w.env.now w.calls) hget
    rw [hv]
    refine ⟨rfl,hrem.mono fun loc b b' hb => ?_,?_⟩
    · by_cases hloc : loc = k ++ [c]
      · exact .inr ⟨hloc,hb.2 hloc⟩
      · exact .inl (hb.1 hloc)
    · rintro _ a' es' rfl hget'
      obtain ⟨b',bs',hb',-,-,hmode'⟩ := hrem.dir _ b bs hget
      cases hget'.symm.trans hb'
      exact hmode' rfl
  · have hsame : unlockEntry k w c = w := by
      have htype : n.stat.type ≠ .directory := fun h => hn (decide_eq_true h)
      unfold unlockEntry
      rw [hstat]
      exact if_neg htype
    rw [hsame]
    refine ⟨rfl,opens_refl _ _,?_⟩
    rintro _ a' es' rfl hget'
    rw [hget] at hget'
    cases hget'
    exact absurd rfl hn

def ChildOf (k loc : Loc) : Prop := ∃ c, loc = k ++ [c]

def BelowPlace (k loc : Loc) : Prop := ∃ c r, loc = k ++ c :: r

/-- Names of a directory, as the walk gives them. -/
def NamesIn (t : Node) (k : Loc) (names : List Name) : Prop :=
  ∀ c ∈ names, c.bytes.length ≤ nameMax ∧ ∃ n, t.get (k ++ [c]) = some n

theorem NamesIn.kept {names : List Name} (h : NamesIn t k names) (hopens : Opens Q t t') :
    NamesIn t' k names := by
  intro c hc
  obtain ⟨hlen,n,hn⟩ := h c hc
  exact ⟨hlen,hopens.exists_get hn⟩

/-- The body of the loop, for all names of a directory. -/
theorem foldl_unlockEntry {names : List Name} (hk : OpenDir w.root k)
    (hnames : NamesIn w.root k names) :
    (names.foldl (unlockEntry k) w).env = w.env ∧
      Opens (ChildOf k) w.root (names.foldl (unlockEntry k) w).root ∧
      ∀ c ∈ names, AllOpen (· = k ++ [c]) (names.foldl (unlockEntry k) w).root := by
  induction names generalizing w with
  | nil => exact ⟨rfl,opens_refl _ _,by simp⟩
  | cons c names ih =>
    obtain ⟨hc,n,hn⟩ := hnames c List.mem_cons_self
    obtain ⟨henv,hopens,hopen⟩ := unlockEntry_opens (w := w) hk hc hn
    have hrest : NamesIn w.root k names := fun d hd => hnames d (List.mem_cons_of_mem _ hd)
    obtain ⟨henv',hopens',hopen'⟩ := ih (hk.kept hopens) (hrest.kept hopens)
    have hchild : ∀ loc, loc = k ++ [c] → ChildOf k loc := fun loc h => ⟨c,h⟩
    rw [List.foldl_cons]
    refine ⟨henv'.trans henv,(hopens.mono hchild).trans hopens',fun d hd => ?_⟩
    rcases List.mem_cons.mp hd with rfl | hd
    · exact hopen.kept hopens'
    · exact hopen' d hd

/-- What a walk from an open directory does. -/
structure Walked (k : Loc) (w v : World) : Prop where
  env : v.env = w.env
  opens : Opens (BelowPlace k) w.root v.root
  opened : AllOpen (BelowPlace k) v.root

/-- The walk goes on into all names, and opens everything below those that are directories. -/
theorem foldl_walkInto (walk : Loc → World → World) {names : List Name}
    (hwalk : ∀ c v, Stored v.root → OpenDir v.root (k ++ [c]) → Shallow n v.root (k ++ [c]) →
      Walked (k ++ [c]) v (walk (k ++ [c]) v))
    (ht : Stored w.root) (hk : OpenDir w.root k) (hshallow : Shallow (n+1) w.root k)
    (hnames : NamesIn w.root k names) (hopen : ∀ c ∈ names, AllOpen (· = k ++ [c]) w.root) :
    (names.foldl (walkInto walk k) w).env = w.env ∧
      Opens (BelowPlace k) w.root (names.foldl (walkInto walk k) w).root ∧
      ∀ c ∈ names, AllOpen (BelowPlace (k ++ [c])) (names.foldl (walkInto walk k) w).root := by
  induction names generalizing w with
  | nil => exact ⟨rfl,opens_refl _ _,by simp⟩
  | cons c names ih =>
    obtain ⟨hc,m,hm⟩ := hnames c List.mem_cons_self
    have hwalked : Walked (k ++ [c]) w (walkInto walk k w c) := by
      obtain ⟨a,es,hdir,hmode⟩ := hk
      have hsearch : a.mode.search = true := by rw [hmode]
      unfold walkInto
      by_cases hn : m.isDir = true
      · obtain ⟨b,bs,rfl⟩ := Node.eq_dir hn
        have hb := hopen c List.mem_cons_self _ b bs rfl hm
        have hopened := World.opendirFrom_eq
          (fun follow => namei_entry follow w.env.maxLinks hdir hsearch hc hm (by simp [Node.type]))
          hm (by rw [hb])
        rw [hopened]
        exact hwalk c w ht ⟨b,bs,hm,hb⟩ (hshallow.child c)
      · obtain ⟨e,he⟩ := World.opendirFrom_error
          (namei_entry false w.env.maxLinks hdir hsearch hc hm (by simp)) hm (by simpa using hn)
        rw [he]
        refine ⟨rfl,opens_refl _ _,?_⟩
        rintro _ a' es' ⟨d,r,rfl⟩ hget
        rw [Node.get_append,hm] at hget
        cases m with
        | dir => exact absurd rfl hn
        | file | symlink | special => cases hget
    have hopens := hwalked.opens
    have hrest : NamesIn w.root k names := fun d hd => hnames d (List.mem_cons_of_mem _ hd)
    obtain ⟨henv',hopens',hopen'⟩ := ih (hopens.stored ht) (hk.kept hopens) (hshallow.kept hopens)
      (hrest.kept hopens) fun d hd => (hopen d (List.mem_cons_of_mem _ hd)).kept hopens
    have hbelow : ∀ loc, BelowPlace (k ++ [c]) loc → BelowPlace k loc := by
      rintro _ ⟨d,r,rfl⟩
      exact ⟨c,d :: r,by simp⟩
    rw [List.foldl_cons]
    refine ⟨henv'.trans hwalked.env,(hopens.mono hbelow).trans hopens',fun d hd => ?_⟩
    rcases List.mem_cons.mp hd with rfl | hd
    · exact hwalked.opened.kept hopens'
    · exact hopen' d hd

/-- Every directory below the one that the walk starts in is open in the end. -/
theorem fwalkUnlock_walked (n : ℕ) (ht : Stored w.root) (hk : OpenDir w.root k)
    (hshallow : Shallow n w.root k) : Walked k w (fwalkUnlock n k w) := by
  induction n generalizing k w with
  | zero =>
    obtain ⟨a,es,hdir,-⟩ := hk
    have hnone := hshallow [] le_rfl
    rw [List.append_nil,hdir] at hnone
    cases hnone
  | succ n ih =>
    obtain ⟨a,es,hdir,hmode⟩ := id hk
    have hnames : NamesIn w.root k (directoryNames w k) := by
      intro c hc
      unfold directoryNames at hc
      rw [hdir] at hc
      obtain ⟨e,he,rfl⟩ := List.mem_map.mp hc
      have hmem := (List.mem_filter.mp he).1
      refine ⟨ht.short k a es hdir e hmem,e.2,?_⟩
      rw [Node.get_entry hdir]
      exact lookup_of_mem (ht.nodup k a es hdir) hmem
    obtain ⟨henv,hopens,hopen⟩ := foldl_unlockEntry hk hnames
    obtain ⟨henv',hopens',hopen'⟩ := foldl_walkInto (fwalkUnlock n)
      (fun c v hv hkv hsv => ih hv hkv hsv) (hopens.stored ht) (hk.kept hopens)
      (hshallow.kept hopens) (hnames.kept hopens) hopen
    have hchild : ∀ loc, ChildOf k loc → BelowPlace k loc := by
      rintro _ ⟨c,rfl⟩
      exact ⟨c,[],rfl⟩
    have hall := (hopens.mono hchild).trans hopens'
    refine ⟨henv'.trans henv,hall,?_⟩
    rintro _ a' es' ⟨c,r,rfl⟩ hget
    -- the entry that leads there is a directory, so the walk was given its name
    have hc : c ∈ directoryNames w k := by
      have hchildDir : ∃ b bs, w.root.get (k ++ [c]) = some (.dir b bs) := by
        obtain ⟨b,bs,hb,-,-⟩ := hall.dir_before hget
        cases r with
        | nil => exact ⟨b,bs,hb⟩
        | cons d r =>
          rw [show k ++ c :: d :: r = (k ++ [c] ++ [d]) ++ r by simp,Node.get_append,
            Option.bind_eq_some_iff] at hb
          obtain ⟨m,hm,-⟩ := hb
          obtain ⟨x,xs,hx,-⟩ := Node.get_parent hm
          exact ⟨x,xs,hx⟩
      obtain ⟨b,bs,hb⟩ := hchildDir
      rw [Node.get_entry hdir] at hb
      have hmem := (mem_entries_iff ht hdir).mpr hb
      unfold directoryNames
      rw [hdir]
      exact List.mem_map.mpr ⟨_,List.mem_filter.mpr ⟨hmem,rfl⟩,rfl⟩
    cases r with
    | nil => exact (hopen c hc).kept hopens' _ a' es' rfl hget
    | cons d r => exact hopen' c hc _ a' es' ⟨d,r,by simp⟩ hget

end Unlock

/-- A tree that can be removed: every directory is open, and no deeper than `n`. -/
structure Removable (n : ℕ) (t : Node) : Prop where
  opened : ∀ r a es, t.get r = some (.dir a es) → a.mode = openMode
  nodup : ∀ r a es, t.get r = some (.dir a es) → (es.map Prod.fst).Nodup
  short : ∀ r a es, t.get r = some (.dir a es) → ∀ e ∈ es, e.1.bytes.length ≤ nameMax
  shallow : ∀ r, n ≤ r.length → t.get r = none

section Remove
variable {w v : World} {k : Loc} {n : ℕ} {a : Attr} {es : List (Name × Node)} {e : Name × Node}

theorem Removable.child (h : Removable (n+1) (.dir a (e :: es))) : Removable n e.2 := by
  have hget (r : Loc) : (Node.dir a (e :: es)).get (e.1 :: r) = e.2.get r := by
    rw [Node.get_cons,Node.child,Node.entries,List.lookup_cons_self,Option.bind_some]
  refine ⟨fun r b bs hb => h.opened (e.1 :: r) b bs (by rw [hget,hb]),
    fun r b bs hb => h.nodup (e.1 :: r) b bs (by rw [hget,hb]),
    fun r b bs hb => h.short (e.1 :: r) b bs (by rw [hget,hb]),fun r hr => ?_⟩
  rw [← hget]
  apply h.shallow
  rw [List.length_cons]
  omega

/-- The rest of a directory, after its first entry. -/
theorem Removable.rest {a' : Attr} (h : Removable (n+1) (.dir a (e :: es)))
    (hmode : a'.mode = a.mode) : Removable (n+1) (.dir a' es) := by
  have hnodup := h.nodup [] a (e :: es) rfl
  have hget (c : Name) (r : Loc) {m : Node} (hm : (Node.dir a' es).get (c :: r) = some m) :
      (Node.dir a (e :: es)).get (c :: r) = some m := by
    rw [Node.get_cons,Node.child,Node.entries,Option.bind_eq_some_iff] at hm ⊢
    obtain ⟨x,hx,hm⟩ := hm
    refine ⟨x,?_,hm⟩
    have hne : c ≠ e.1 := by
      intro hc
      obtain ⟨l,r,hes,-⟩ := List.lookup_eq_some_iff.mp hx
      refine (List.nodup_cons.mp hnodup).1 (List.mem_map.mpr ⟨(c,x),?_,hc⟩)
      rw [hes]
      simp
    rw [lookup_cons_ite,if_neg hne,hx]
  refine ⟨fun r b bs hb => ?_,fun r b bs hb => ?_,fun r b bs hb => ?_,fun r hr => ?_⟩
  · cases r with
    | nil =>
      cases hb
      rw [hmode]
      exact h.opened [] a (e :: es) rfl
    | cons c r => exact h.opened (c :: r) b bs (hget c r hb)
  · cases r with
    | nil =>
      cases hb
      exact (List.nodup_cons.mp hnodup).2
    | cons c r => exact h.nodup (c :: r) b bs (hget c r hb)
  · cases r with
    | nil =>
      cases hb
      exact fun d hd => h.short [] a (e :: es) rfl d (List.mem_cons_of_mem _ hd)
    | cons c r => exact h.short (c :: r) b bs (hget c r hb)
  · cases r with
    | nil => cases hr
    | cons c r =>
      cases hm : (Node.dir a' es).get (c :: r) with
      | none => rfl
      | some m =>
        have hnone := h.shallow (c :: r) hr
        rw [hget c r hm] at hnone
        cases hnone

/-- The directory at a place lost all its entries. -/
structure Emptied (k : Loc) (a : Attr) (w v : World) : Prop where
  env : v.env = w.env
  root : ∃ a', a'.mode = a.mode ∧ v.root = w.root.modify (fun _ => .dir a' []) k

theorem eraseEntry_head (h : ((e :: es).map Prod.fst).Nodup) (m : Node) :
    eraseEntry e.1 ((e.1,m) :: es) = es := by
  have hno := (List.nodup_cons.mp h).1
  rw [eraseEntry,List.filter_cons_of_neg (by simp),List.filter_eq_self]
  intro d hd
  have hne : d.1 ≠ e.1 := fun hde => hno (List.mem_map.mpr ⟨d,hd,hde⟩)
  simpa using hne

/-- One entry is removed, with everything below it. -/
theorem removeEntry_eq (remove : Loc → World → Except Errno World)
    (hremove : ∀ b bs, e.2 = .dir b bs →
      ∃ v, remove (k ++ [e.1]) w = .ok v ∧ Emptied (k ++ [e.1]) b w v)
    (hdir : w.root.get k = some (.dir a (e :: es))) (h : Removable (n+1) (.dir a (e :: es))) :
    ∃ v a', removeEntry remove k w e = .ok v ∧ v.env = w.env ∧ a'.mode = a.mode ∧
      v.root = w.root.modify (fun _ => .dir a' es) k := by
  have hmode := h.opened [] a (e :: es) rfl
  have hsearch : a.mode.search = true := by rw [hmode]
  have hwrite : a.mode.write = true := by rw [hmode]
  have hnodup := h.nodup [] a (e :: es) rfl
  have hc := h.short [] a (e :: es) rfl e List.mem_cons_self
  have hget : w.root.get (k ++ [e.1]) = some e.2 := by
    rw [Node.get_entry hdir,List.lookup_cons_self]
  unfold removeEntry
  by_cases hn : e.2.isDir = true
  · obtain ⟨b,bs,hb⟩ := Node.eq_dir hn
    have hbmode := h.child.opened [] b bs (by rw [hb]; rfl)
    rw [hb] at hget
    have hopen := World.opendirFrom_eq
      (fun follow => namei_entry follow w.env.maxLinks hdir hsearch hc hget (by simp [Node.type]))
      hget (by rw [hbmode])
    obtain ⟨u,hu,henv,b',-,hroot⟩ := hremove b bs hb
    -- the emptied directory is still an entry
    have hdir' : u.root.get k = some (.dir a ((e.1,.dir b' []) :: es)) := by
      rw [hroot,Node.get_modify_above,hdir,Option.map_some,Node.modify_cons_of_child _ []
        (c := e.2) (by rw [Node.child,Node.entries,List.lookup_cons_self])]
      simp [Node.attr,Node.entries,setEntry]
    have hget' : u.root.get (k ++ [e.1]) = some (.dir b' []) := by
      rw [Node.get_entry hdir',List.lookup_cons_self]
    have hrmdir := World.rmdirFrom_eq
      (namei_entry false u.env.maxLinks hdir' hsearch hc hget' (by simp)) hdir' hwrite hget'
    obtain ⟨a',ha',hunlink,henv'⟩ := World.root_unlink (c := e.1) hdir'
    refine ⟨_,a',?_,henv'.trans henv,ha',?_⟩
    · rw [if_pos hn]
      simp only [hopen,hu,bind,Except.bind]
      exact hrmdir
    · rw [hunlink,hroot,eraseEntry_head hnodup,Node.modify_append,Node.modify_modify]
  · have hunlink := World.unlinkFrom_eq hdir hsearch hwrite hc hget (by simpa using hn)
    obtain ⟨a',ha',hroot,henv⟩ := World.root_unlink (c := e.1) hdir
    refine ⟨_,a',?_,henv,ha',?_⟩
    · rw [if_neg hn]
      exact hunlink
    · rw [hroot]
      have herase : eraseEntry e.1 (e :: es) = es := eraseEntry_head hnodup e.2
      rw [herase]

/-- The loop over the entries of a directory. -/
theorem foldlM_removeEntry {remove : Loc → World → Except Errno World}
    (hremove : ∀ c b bs v, v.root.get (k ++ [c]) = some (.dir b bs) → Removable n (.dir b bs) →
      ∃ u, remove (k ++ [c]) v = .ok u ∧ Emptied (k ++ [c]) b v u)
    (hdir : w.root.get k = some (.dir a es)) (h : Removable (n+1) (.dir a es)) :
    ∃ v, es.foldlM (removeEntry remove k) w = .ok v ∧ Emptied k a w v := by
  induction es generalizing w a with
  | nil => exact ⟨w,rfl,rfl,a,rfl,(Node.modify_const_self hdir).symm⟩
  | cons e es ih =>
    obtain ⟨u,a',hu,henv,hmode,hroot⟩ := removeEntry_eq remove (fun b bs hb => by
      refine hremove e.1 b bs w ?_ (hb ▸ h.child)
      rw [Node.get_entry hdir,List.lookup_cons_self,hb]) hdir h
    have hdir' : u.root.get k = some (.dir a' es) := by
      rw [hroot,Node.get_modify_self,hdir]
      rfl
    obtain ⟨v,hv,henv',b,hb,hroot'⟩ := ih hdir' (h.rest hmode)
    refine ⟨v,?_,henv'.trans henv,b,hb.trans hmode,?_⟩
    · rw [List.foldlM_cons,hu]
      exact hv
    · rw [hroot',hroot,Node.modify_modify]

/-- Everything in a directory that can be removed is removed. -/
theorem removeEntries_eq (hdir : w.root.get k = some (.dir a es)) (h : Removable n (.dir a es)) :
    ∃ v, removeEntries n k w = .ok v ∧ Emptied k a w v := by
  induction n generalizing w k a es with
  | zero =>
    have hnone := h.shallow [] le_rfl
    cases hnone
  | succ n ih =>
    rw [removeEntries,hdir]
    exact foldlM_removeEntry (fun c b bs v hv hb => ih hv hb) hdir h

end Remove

/-- The entry `c` of the directory at `d` is gone with everything below it, and nothing else differs
but the size and the times of that directory. -/
structure RemovedOnly (d : Loc) (c : Name) (t t' : Node) : Prop where
  gone : ∀ k, d ++ [c] <+: k → t'.get k = none
  none : ∀ k, t.get k = none → t'.get k = none
  leaf : ∀ k n, ¬d ++ [c] <+: k → t.get k = some n → n.isDir = false → t'.get k = some n
  dir : ∀ k a es, ¬d ++ [c] <+: k → t.get k = some (.dir a es) →
    ∃ a' es', t'.get k = some (.dir a' es') ∧ a'.mode = a.mode ∧ (k ≠ d → a' = a) ∧
      es'.map Prod.fst = if k = d then (es.map Prod.fst).filter (· ≠ c) else es.map Prod.fst

section Tree
variable {t t' t'' : Node} {d : Loc} {c : Name} {a a' : Attr} {es : List (Name × Node)} {w : World}

theorem names_eraseEntry (c : Name) (es : List (Name × Node)) :
    (eraseEntry c es).map Prod.fst = (es.map Prod.fst).filter (· ≠ c) := by
  rw [eraseEntry,List.filter_map]
  rfl

theorem eraseEntry_setEntry (c : Name) (n : Node) (es : List (Name × Node)) :
    eraseEntry c (setEntry c n es) = eraseEntry c es := by
  induction es with
  | nil => simp [setEntry,eraseEntry]
  | cons e es ih =>
    obtain ⟨k,m⟩ := e
    unfold eraseEntry at ih ⊢
    rw [setEntry]
    by_cases hk : k = c
    · simp [hk]
    · rw [if_neg hk,List.filter_cons,List.filter_cons,ih]

theorem removedOnly_modify (hdir : t.get d = some (.dir a es)) (hmode : a'.mode = a.mode) :
    RemovedOnly d c t (t.modify (fun _ => .dir a' (eraseEntry c es)) d) := by
  have hself (r : Loc) : (t.modify (fun _ => .dir a' (eraseEntry c es)) d).get (d ++ r) =
      (Node.dir a' (eraseEntry c es)).get r := by
    rw [Node.get_modify_append,hdir]
    rfl
  have hchild (k : Name) (r : Loc) :
      (t.modify (fun _ => .dir a' (eraseEntry c es)) d).get (d ++ k :: r) =
        if k = c then none else t.get (d ++ k :: r) := by
    rw [hself,Node.get_cons,Node.child,Node.entries,lookup_eraseEntry,Node.get_append,hdir]
    split_ifs <;> rfl
  have hoff {k : Name} {r : Loc} (h : ¬d ++ [c] <+: d ++ k :: r) : k ≠ c := by
    rintro rfl
    exact h ⟨r,by simp⟩
  refine ⟨?_,fun k hget => ?_,fun k n hk hget hn => ?_,fun k b bs hk hget => ?_⟩
  · rintro _ ⟨r,rfl⟩
    rw [List.append_assoc,List.singleton_append,hchild,if_pos rfl]
  · rcases place_cases d k with ⟨x,r,rfl⟩ | rfl | ⟨x,r,rfl⟩ | ⟨h,h'⟩
    · rw [hchild,hget,ite_self]
    · cases hdir.symm.trans hget
    · rw [Node.get_modify_above,hget]
      rfl
    · rw [Node.get_modify_of_apart _ _ h h',hget]
  · rcases place_cases d k with ⟨x,r,rfl⟩ | rfl | ⟨x,r,rfl⟩ | ⟨h,h'⟩
    · rw [hchild,if_neg (hoff hk),hget]
    · cases hdir.symm.trans hget
      cases hn
    · rw [Node.get_append,hget] at hdir
      cases n with
      | dir => cases hn
      | file | symlink | special => cases hdir
    · rw [Node.get_modify_of_apart _ _ h h',hget]
  · rcases place_cases d k with ⟨x,r,rfl⟩ | rfl | ⟨x,r,rfl⟩ | ⟨h,h'⟩
    · refine ⟨b,bs,by rw [hchild,if_neg (hoff hk),hget],rfl,fun _ => rfl,?_⟩
      rw [if_neg (ne_append_cons d x r).symm]
    · cases hdir.symm.trans hget
      have hget' := hself []
      rw [List.append_nil] at hget'
      refine ⟨a',_,hget',hmode,fun h => absurd rfl h,?_⟩
      rw [if_pos rfl,names_eraseEntry]
    · obtain ⟨bs',hget',hnames⟩ := Node.get_modify_dir_above
        (fun _ => .dir a' (eraseEntry c es)) hget hdir
      refine ⟨b,bs',hget',rfl,fun _ => rfl,?_⟩
      rw [if_neg (ne_append_cons k x r),hnames]
    · refine ⟨b,bs,by rw [Node.get_modify_of_apart _ _ h h',hget],rfl,fun _ => rfl,?_⟩
      have hne : k ≠ d := by
        rintro rfl
        exact h List.prefix_rfl
      rw [if_neg hne]

/-- Opening directories that are removed then leaves no trace. -/
theorem RemovedOnly.of_opens {P : Loc → Prop} (h : Opens P t t') (hP : ∀ k, P k → d ++ [c] <+: k)
    (h' : RemovedOnly d c t' t'') : RemovedOnly d c t t'' := by
  refine ⟨h'.gone,fun k hget => h'.none k (h.none k hget),fun k n hk hget hn => ?_,
    fun k a es hk hget => ?_⟩
  · exact h'.leaf k n hk (h.leaf k n hget hn) hn
  · obtain ⟨b,bs,hget',hnames,hb⟩ := h.dir k a es hget
    have hab : b = a := by
      rcases hb with hb | ⟨hPk,-⟩
      · exact hb
      · exact absurd (hP k hPk) hk
    subst hab
    rw [← hnames]
    exact h'.dir k b bs hk hget'

theorem length_lt_count {t n : Node} {r : Loc} (h : t.get r = some n) : r.length < t.count := by
  induction r generalizing t with
  | nil => exact count_pos t
  | cons c r ih =>
    rw [Node.get_cons,Option.bind_eq_some_iff] at h
    obtain ⟨m,hm,h⟩ := h
    cases t with
    | dir a es =>
      have hlt := ih h
      have hle : m.count ≤ countEntries es := by
        obtain ⟨l,l',hes,-⟩ := List.lookup_eq_some_iff.mp hm
        change es = _ at hes
        rw [hes]
        clear hes hm hlt h ih
        induction l with
        | nil =>
          rw [List.nil_append,countEntries,countEntry]
          omega
        | cons e l ihl =>
          rw [List.cons_append,countEntries]
          omega
      rw [List.length_cons,Node.count]
      omega
    | file | symlink | special => cases hm

theorem shallow_count (t : Node) (k : Loc) : Shallow t.count t k := by
  intro r hr
  cases hget : t.get (k ++ r) with
  | none => rfl
  | some n =>
    have hlt := length_lt_count hget
    rw [List.length_append] at hlt
    omega

/-- The tree that the walk has opened can be removed. -/
theorem removable_of_opened {n : ℕ} {k : Loc} (ht : Stored t) (hdir : t.get k = some (.dir a es))
    (hk : a.mode = openMode) (hbelow : AllOpen (BelowPlace k) t) (hshallow : Shallow n t k) :
    Removable n (.dir a es) := by
  have hget (r : Loc) : t.get (k ++ r) = (Node.dir a es).get r := by
    rw [Node.get_append,hdir]
    rfl
  refine ⟨fun r b bs hb => ?_,fun r b bs hb => ht.nodup (k ++ r) b bs (by rw [hget,hb]),
    fun r b bs hb => ht.short (k ++ r) b bs (by rw [hget,hb]),fun r hr => ?_⟩
  · cases r with
    | nil =>
      cases hb
      exact hk
    | cons c r => exact hbelow (k ++ c :: r) b bs ⟨c,r,rfl⟩ (by rw [hget,hb])
  · rw [← hget]
    exact hshallow r hr

/-- Directories on the way to a place are there, and may be searched, while others are opened. -/
theorem passable_kept {P : Loc → Prop} {k : Loc} (h : Passable t [] k) (hopens : Opens P t t') :
    Passable t' [] k := by
  intro j x hj
  obtain ⟨b,bs,hb,hsearch⟩ := h j x hj
  obtain ⟨b',bs',hb',-,hab⟩ := hopens.dir _ b bs hb
  refine ⟨b',bs',hb',?_⟩
  rcases hab with rfl | ⟨-,hmode⟩
  · exact hsearch
  · rw [hmode]

/-- `shutil.rmtree` of a tree whose directories are open. -/
theorem rmtree_removes {n : ℕ} {b : Attr} {bs : List (Name × Node)} (ht : Stored w.root)
    (hdir : w.root.get d = some (.dir a es)) (hwrite : a.mode.write = true)
    (htop : w.root.get (d ++ [c]) = some (.dir b bs)) (hb : Removable n (.dir b bs))
    (hpass : Passable w.root [] (d ++ [c])) (hpath : (relPath (d ++ [c])).length < pathMax) :
    ∃ v, rmtree n (relPath (d ++ [c])) w = .ok v ∧ RemovedOnly d c w.root v.root := by
  have hshort := ht.short_of_get htop
  have hread : b.mode.read = true := by rw [hb.opened [] b bs rfl]
  have hopen := World.opendirFrom_eq
    (fun follow => namei_relPath follow w.env.maxLinks (by simp) htop hpass hshort hpath) htop hread
  obtain ⟨u,hu,henv,b',-,hroot⟩ := removeEntries_eq htop hb
  have hentry : (Node.dir a es).child c = some (.dir b bs) := by
    rw [Node.child,Node.entries,← Node.get_entry hdir,htop]
  have hdir' : u.root.get d = some (.dir a (setEntry c (.dir b' []) es)) := by
    rw [hroot,Node.get_modify_above,hdir,Option.map_some,Node.modify_cons_of_child _ [] hentry]
    rfl
  have htop' : u.root.get (d ++ [c]) = some (.dir b' []) := by
    rw [hroot,Node.get_modify_self,htop]
    rfl
  have hpass' : Passable u.root [] (d ++ [c]) := by
    intro j x hj
    obtain ⟨y,ys,hy,hsearch⟩ := hpass j x hj
    rw [List.nil_append] at hy ⊢
    obtain ⟨r,hr⟩ := hj
    have hsplit : d ++ [c] = j ++ x :: r := by rw [← hr]; simp
    rw [hsplit] at htop hroot
    obtain ⟨ys',hy',-⟩ := Node.get_modify_dir_above (fun _ => .dir b' []) hy htop
    exact ⟨y,ys',hroot ▸ hy',hsearch⟩
  have hrmdir := World.rmdirFrom_eq
    (namei_relPath false u.env.maxLinks (by simp) htop' hpass' hshort hpath) hdir' hwrite htop'
  obtain ⟨a',ha',hunlink,-⟩ := World.root_unlink (c := c) hdir'
  refine ⟨u.unlink (d ++ [c]),?_,?_⟩
  · simp only [rmtree,hopen,hu,bind,Except.bind]
    exact hrmdir
  · rw [hunlink,eraseEntry_setEntry,hroot,Node.modify_append,Node.modify_modify]
    exact removedOnly_modify hdir ha'

/-- `_remove_tree` removes the tree and nothing else, whatever modes and links there are in it. -/
theorem removeTree_removes (w : World) (d : Loc) (c : Name) (a b : Attr)
    (es bs : List (Name × Node)) (ht : Stored w.root) (hdir : w.root.get d = some (.dir a es))
    (hwrite : a.mode.write = true) (htop : w.root.get (d ++ [c]) = some (.dir b bs))
    (hpass : Passable w.root [] (d ++ [c])) (hpath : (relPath (d ++ [c])).length < pathMax) :
    ∃ v, removeTree (relPath (d ++ [c])) w = .ok v ∧ RemovedOnly d c w.root v.root := by
  have hshort := ht.short_of_get htop
  have hchmod := World.chmodFrom_eq openMode
    (namei_relPath true w.env.maxLinks (by simp) htop hpass hshort hpath) htop
  -- the top of the tree is opened first
  have hopens : Opens (· = d ++ [c]) w.root
      (w.root.modify (Node.chmod openMode (w.env.now w.calls)) (d ++ [c])) := by
    refine (Remoded.chmod openMode (w.env.now w.calls) htop).mono fun k x x' hx => ?_
    by_cases hk : k = d ++ [c]
    · exact .inr ⟨hk,hx.2 hk⟩
    · exact .inl (hx.1 hk)
  generalize hv : w.update (d ++ [c]) (Node.chmod openMode (w.env.now w.calls)) = v at hchmod
  have hvenv : v.env = w.env := by rw [← hv]; rfl
  have hvroot : Opens (· = d ++ [c]) w.root v.root := by rw [← hv]; exact hopens
  have hvtop : OpenDir v.root (d ++ [c]) := by
    rw [← hv]
    refine ⟨{b with mode := openMode, ctimeNs := w.env.now w.calls},bs,?_,rfl⟩
    change (w.root.modify _ (d ++ [c])).get (d ++ [c]) = _
    rw [Node.get_modify_self,htop]
    rfl
  obtain ⟨x,xs,hx,hxmode⟩ := id hvtop
  have hvpass := passable_kept hpass hvroot
  have hvstored := hvroot.stored ht
  have hopen := World.opendirFrom_eq
    (fun follow => namei_relPath follow v.env.maxLinks (by simp) hx hvpass hshort hpath) hx
    (by rw [hxmode])
  -- the walk opens the rest
  have hwalked := fwalkUnlock_walked w.root.count hvstored hvtop
    ((shallow_count w.root (d ++ [c])).kept hvroot)
  have hall : Opens (d ++ [c] <+: ·) w.root (fwalkUnlock w.root.count (d ++ [c]) v).root := by
    refine (hvroot.mono ?_).trans (hwalked.opens.mono ?_)
    · rintro k rfl
      exact List.prefix_rfl
    · rintro k ⟨y,r,rfl⟩
      exact List.prefix_append _ _
  obtain ⟨y,ys,hy,hymode⟩ := hvtop.kept hwalked.opens
  obtain ⟨a',es',hdir',-,ha'⟩ := hall.dir d a es hdir
  have hsame : a' = a := by
    rcases ha' with ha' | ⟨hd,-⟩
    · exact ha'
    · have hle := hd.length_le
      rw [List.length_append,List.length_singleton] at hle
      omega
  subst hsame
  have hstored := hall.stored ht
  obtain ⟨z,hz,hremoved⟩ := rmtree_removes hstored hdir' hwrite hy
    (removable_of_opened hstored hy hymode hwalked.opened
      ((shallow_count w.root (d ++ [c])).kept hall)) (passable_kept hpass hall) hpath
  refine ⟨z,?_,RemovedOnly.of_opens hall (fun _ hk => hk) hremoved⟩
  simp only [removeTree,hchmod,hopen,bind,Except.bind]
  exact hz

/-- A session root with one session: a locked directory, and a link out of the session. -/
def lockedSession : Node :=
  .dir ⟨1,openMode,0,0,0⟩ [(⟨[0x73],isName_s⟩,.dir ⟨2,⟨false,false,false⟩,0,0,0⟩
    [(⟨[0x64],isName_d⟩,.dir ⟨3,⟨false,false,false⟩,0,0,0⟩
      [(⟨[0x66],isName_f⟩,.file ⟨4,⟨true,true,false⟩,0,0,0⟩ [0x78])]),
    (⟨[0x6C],by decide⟩,.symlink ⟨5,openMode,0,0,0⟩ [0x2F])])]

theorem removeTree_removes_lockedSession :
    ∃ v, removeTree (relPath [⟨[0x73],isName_s⟩])
        ⟨⟨40,fun _ _ => none,fun n => n,fun _ => 0,fun _ => 0,fun _ => [],fun _ => false,
          fun _ => false,fun _ => false⟩,
          lockedSession,[],3,0,[]⟩ = .ok v ∧
      RemovedOnly [] ⟨[0x73],isName_s⟩ lockedSession v.root := by
  have hstored : Stored lockedSession := by
    refine .dir (by simp) (by simp [nameMax]) fun e he _ => ?_
    rw [List.mem_singleton.mp he]
    refine .dir (by simp) (by simp [nameMax]) fun e he hdir => ?_
    simp only [List.mem_cons,List.not_mem_nil,or_false] at he
    rcases he with rfl | rfl
    · exact .dir (by simp) (by simp [nameMax]) (by simp [Node.isDir,Node.type])
    · cases hdir
  refine removeTree_removes _ [] ⟨[0x73],isName_s⟩ _ _ _ _ hstored rfl rfl rfl ?_ (by decide)
  intro j x hj
  have hnil : j = [] := by
    have := hj.length_le
    rw [List.length_append,List.length_singleton] at this
    exact List.length_eq_zero_iff.mp (by simpa using this)
  rw [hnil]
  exact ⟨_,_,rfl,rfl⟩

end Tree

end CodeExecutorApi
