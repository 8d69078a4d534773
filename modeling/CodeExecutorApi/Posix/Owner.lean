import CodeExecutorApi.Posix.Modes
import CodeExecutorApi.Posix.Mount

/-! Calls of the owner of a tree that change modes or remove entries. A place stands for the
descriptor of an open directory, of which there are enough. -/
namespace Posix

section Resolve
variable {root : Node} {loc k : Loc} {a : Attr} {es : List (Name × Node)}

/-- Names of directories lead down to the last of them, links being followed or not. -/
theorem descend_dirs (follow : Bool) (onLink : Loc → List Bytes → Except Errno Loc)
    (hdir : root.get (k ++ loc) = some (.dir a es)) (hpass : Passable root k loc)
    (hshort : ∀ c ∈ loc, c.bytes.length ≤ nameMax) :
    descend root follow onLink k (loc.map Name.bytes) = .ok (k ++ loc) := by
  induction loc generalizing k with
  | nil =>
    rw [List.append_nil]
    rfl
  | cons c loc ih =>
    have hc := c.isName
    rw [show k ++ c :: loc = k ++ [c] ++ loc by simp] at hdir ⊢
    obtain ⟨⟨b,bs,hb,hsearch⟩,hrest⟩ := passable_cons.mp hpass
    have hlen := Nat.not_lt.mpr (hshort c List.mem_cons_self)
    have hchild : ∃ d ds, bs.lookup c = some (.dir d ds) := by
      rw [← Node.get_entry hb]
      cases loc with
      | nil =>
        rw [List.append_nil] at hdir
        exact ⟨a,es,hdir⟩
      | cons d loc =>
        obtain ⟨x,xs,hx,-⟩ := hrest [] d (by simp)
        rw [List.append_nil] at hx
        exact ⟨x,xs,hx⟩
    obtain ⟨d,ds,hd⟩ := hchild
    rw [List.map_cons]
    simp only [descend,hb,hc.ne_thisDir,hc.ne_parentDir,if_false,dif_pos hc,if_neg hlen,hd,
      hsearch,Bool.true_eq_false]
    exact ih hdir hrest fun x hx => hshort x (List.mem_cons_of_mem _ hx)

theorem walk_eq_descend (root : Node) (follow : Bool) (maxLinks : ℕ) :
    ∃ onLink, walk root follow maxLinks = descend root follow onLink := by
  cases maxLinks with
  | zero => exact ⟨_,rfl⟩
  | succ n => exact ⟨_,rfl⟩

/-- The path of a directory leads to it. -/
theorem namei_relPath (follow : Bool) (maxLinks : ℕ) (hne : loc ≠ [])
    (hdir : root.get loc = some (.dir a es)) (hpass : Passable root [] loc)
    (hshort : ∀ c ∈ loc, c.bytes.length ≤ nameMax) (hpath : (relPath loc).length < pathMax) :
    namei root follow maxLinks [] (relPath loc) = .ok loc := by
  obtain ⟨c,r,rfl⟩ := List.exists_cons_of_ne_nil hne
  obtain ⟨onLink,honLink⟩ := walk_eq_descend root follow maxLinks
  have hcons : relPath (c :: r) = separator :: (c.bytes ++ relPath r) := rfl
  have hnonempty : relPath (c :: r) ≠ [] := by
    rw [hcons]
    exact List.cons_ne_nil _ _
  have hhead : (relPath (c :: r)).head? = some separator := by
    rw [hcons]
    rfl
  rw [namei,if_neg hnonempty,if_neg (Nat.not_le.mpr hpath),if_pos hhead,comps_relPath,honLink]
  exact descend_dirs follow onLink (k := []) hdir hpass hshort

/-- A name in a searchable directory leads to its entry, unless that is a link to be followed. -/
theorem namei_entry (follow : Bool) (maxLinks : ℕ) {c : Name} {n : Node}
    (hdir : root.get k = some (.dir a es)) (hsearch : a.mode.search = true)
    (hc : c.bytes.length ≤ nameMax) (hget : root.get (k ++ [c]) = some n)
    (hlink : follow = true → n.type ≠ .symlink) :
    namei root follow maxLinks k c.bytes = .ok (k ++ [c]) := by
  have hname := c.isName
  have hhead : c.bytes.head? ≠ some separator := fun hs =>
    hname.separator_notMem (List.mem_of_head? hs)
  have hlen : c.bytes.length < pathMax := Nat.lt_of_le_of_lt hc (by decide)
  obtain ⟨onLink,honLink⟩ := walk_eq_descend root follow maxLinks
  rw [namei,if_neg hname.ne_nil,if_neg (Nat.not_le.mpr hlen),if_neg hhead,comps_name,honLink]
  rw [Node.get_entry hdir] at hget
  simp only [descend,hdir,hname.ne_thisDir,hname.ne_parentDir,if_false,dif_pos hname,
    if_neg (Nat.not_lt.mpr hc),hget,hsearch,Bool.true_eq_false]
  cases n with
  | symlink b target =>
    cases follow with
    | true => exact absurd rfl (hlink rfl)
    | false => simp
  | dir | file | special => rfl

end Resolve

namespace World

/-- `os.chmod`, which follows a last link. -/
def chmodFrom (cwd : Loc) (path : Bytes) (mode : Mode) (w : World) : Except Errno World := do
  let loc ← namei w.root true w.env.maxLinks cwd path
  match w.root.get loc with
  | some _ => return w.update loc (Node.chmod mode (w.env.now w.calls))
  | none => .error .enoent

/-- `os.stat` with `follow_symlinks=False`. -/
def lstatFrom (cwd : Loc) (path : Bytes) (w : World) : Except Errno StatResult := do
  let loc ← namei w.root false w.env.maxLinks cwd path
  match w.root.get loc with
  | some n => return n.stat
  | none => .error .enoent

/-- `os.open` of a directory to read it, unless it is reached through a last link. -/
def opendirFrom (cwd : Loc) (path : Bytes) (w : World) : Except Errno Loc := do
  let st ← w.lstatFrom cwd path
  let loc ← namei w.root true w.env.maxLinks cwd path
  match w.root.get loc with
  | some (.dir a _) =>
    if st.type ≠ .directory then .error .enotdir
    else if a.mode.read then return loc
    else .error .eacces
  | some _ => .error .enotdir
  | none => .error .enoent

def unlinkFrom (cwd : Loc) (path : Bytes) (w : World) : Except Errno World := do
  let loc ← namei w.root false w.env.maxLinks cwd path
  let (_,v) ← unlinkLoc loc w
  return v

def rmdirFrom (cwd : Loc) (path : Bytes) (w : World) : Except Errno World := do
  let loc ← namei w.root false w.env.maxLinks cwd path
  match w.root.get loc with
  | some (.dir _ es) =>
    w.writable loc
    if es ≠ [] then .error .enotempty else return w.unlink loc
  | some _ => .error .enotdir
  | none => .error .enoent

section Calls
variable {w : World} {cwd loc : Loc} {path : Bytes} {n : Node}

theorem chmodFrom_eq (mode : Mode)
    (hpath : namei w.root true w.env.maxLinks cwd path = .ok loc)
    (hget : w.root.get loc = some n) :
    w.chmodFrom cwd path mode = .ok (w.update loc (Node.chmod mode (w.env.now w.calls))) := by
  simp only [chmodFrom,hpath,bind,Except.bind,hget,pure,Except.pure]

theorem lstatFrom_eq (hpath : namei w.root false w.env.maxLinks cwd path = .ok loc)
    (hget : w.root.get loc = some n) : w.lstatFrom cwd path = .ok n.stat := by
  simp only [lstatFrom,hpath,bind,Except.bind,hget,pure,Except.pure]

theorem opendirFrom_eq {a : Attr} {es : List (Name × Node)}
    (hpath : ∀ follow, namei w.root follow w.env.maxLinks cwd path = .ok loc)
    (hget : w.root.get loc = some (.dir a es)) (hread : a.mode.read = true) :
    w.opendirFrom cwd path = .ok loc := by
  have hstat := lstatFrom_eq (hpath false) hget
  have htype : (Node.dir a es).stat.type = .directory := rfl
  simp only [opendirFrom,hstat,hpath true,bind,Except.bind,hget,pure,Except.pure,htype,hread,ne_eq,
    not_true_eq_false,if_false,if_true]

theorem opendirFrom_error {n : Node}
    (hpath : namei w.root false w.env.maxLinks cwd path = .ok loc) (hget : w.root.get loc = some n)
    (hn : n.isDir = false) : ∃ e, w.opendirFrom cwd path = .error e := by
  have hstat := lstatFrom_eq hpath hget
  have htype : n.stat.type ≠ .directory := of_decide_eq_false hn
  simp only [opendirFrom,hstat,bind,Except.bind,if_pos htype]
  cases namei w.root true w.env.maxLinks cwd path with
  | error e => exact ⟨e,rfl⟩
  | ok loc' =>
    dsimp only
    split <;> exact ⟨_,rfl⟩

/-- What `unlink` and `rmdir` leave of the directory of an entry. -/
theorem root_unlink {k : Loc} {c : Name} {a : Attr} {es : List (Name × Node)}
    (hdir : w.root.get k = some (.dir a es)) : ∃ a', a'.mode = a.mode ∧
      (w.unlink (k ++ [c])).root = w.root.modify (fun _ => .dir a' (eraseEntry c es)) k ∧
      (w.unlink (k ++ [c])).env = w.env := by
  unfold unlink
  rw [List.getLast?_concat,List.dropLast_concat]
  refine ⟨{w.newAttr a.mode with ino := a.ino},rfl,?_,rfl⟩
  exact Node.modify_eq_of_get _ hdir

theorem unlinkFrom_eq {k : Loc} {c : Name} {a : Attr} {es : List (Name × Node)}
    (hdir : w.root.get k = some (.dir a es)) (hsearch : a.mode.search = true)
    (hwrite : a.mode.write = true) (hc : c.bytes.length ≤ nameMax)
    (hget : w.root.get (k ++ [c]) = some n) (hn : n.isDir = false) :
    w.unlinkFrom k c.bytes = .ok (w.unlink (k ++ [c])) := by
  have hwritable : w.writable (k ++ [c]) = .ok () := by
    rw [writable,List.dropLast_concat,hdir]
    exact if_pos hwrite
  have hpath := namei_entry false w.env.maxLinks hdir hsearch hc hget (by simp)
  simp only [unlinkFrom,unlinkLoc,hpath,bind,Except.bind,hget,hwritable,hn,pure,Except.pure,
    Bool.false_eq_true,if_false]

theorem rmdirFrom_eq {k : Loc} {c : Name} {b : Attr}
    (hpath : namei w.root false w.env.maxLinks cwd path = .ok (k ++ [c]))
    {a : Attr} {es : List (Name × Node)} (hdir : w.root.get k = some (.dir a es))
    (hwrite : a.mode.write = true) (hget : w.root.get (k ++ [c]) = some (.dir b [])) :
    w.rmdirFrom cwd path = .ok (w.unlink (k ++ [c])) := by
  have hwritable : w.writable (k ++ [c]) = .ok () := by
    rw [writable,List.dropLast_concat,hdir]
    exact if_pos hwrite
  simp only [rmdirFrom,hpath,bind,Except.bind,hget,hwritable,pure,Except.pure,ne_eq,
    not_true_eq_false,if_false]

end Calls
end World
end Posix
