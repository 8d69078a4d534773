import CodeExecutorApi.Machine.Program
import CodeExecutorApi.Posix.Kernel

/-! A tree as a part of a larger one. Calls that name one entry of an open directory, and do not
follow it, do in the host exactly what they do in the tree alone. -/
namespace Posix
open Machine

/-- A host tree, a place in it, and a path that leads there whatever is mounted. -/
structure Mount where
  maxLinks : ℕ
  root : Node
  loc : Loc
  path : Bytes
  here : (root.get loc).isSome
  resolves : ∀ t, namei (root.modify (fun _ => t) loc) false maxLinks [] path = .ok loc

/-- The place of an entry of the node at `loc`. -/
def entryLoc (n : Option Node) (loc : Loc) (c : Name) : Except Errno Loc :=
  if pathMax ≤ c.bytes.length then .error .enametoolong
  else
    match n with
    | some (.dir a _) =>
      if a.mode.search = false then .error .eacces
      else if nameMax < c.bytes.length then .error .enametoolong
      else .ok (loc ++ [c])
    | _ => .error .enotdir

theorem comps_name (c : Name) : comps c.bytes = [c.bytes] := by
  rw [comps,List.splitOn_eq_singleton c.isName.separator_notMem]
  simp [c.isName.ne_nil]

/-- An unfollowed name leads to the entry of that name, and nowhere else. -/
theorem namei_name (root : Node) (maxLinks : ℕ) (loc : Loc) (c : Name) :
    namei root false maxLinks loc c.bytes = entryLoc (root.get loc) loc c := by
  have hc := c.isName
  have hhead : c.bytes.head? ≠ some separator := fun hs =>
    hc.separator_notMem (List.mem_of_head? hs)
  have hwalk : walk root false maxLinks loc [c.bytes] = (match root.get loc with
      | some (.dir a _) =>
        if a.mode.search = false then .error .eacces
        else if nameMax < c.bytes.length then .error .enametoolong
        else .ok (loc ++ [c])
      | _ => .error .enotdir) := by
    obtain ⟨onLink,honLink⟩ : ∃ onLink, walk root false maxLinks = descend root false onLink := by
      cases maxLinks <;> exact ⟨_,rfl⟩
    rw [honLink]
    cases hn : root.get loc with
    | none => simp only [descend,hn]
    | some n =>
      cases n with
      | dir a es =>
        simp only [descend,hn,hc.ne_thisDir,hc.ne_parentDir,if_false,dif_pos hc]
        by_cases hsearch : a.mode.search = false
        · rw [if_pos hsearch,if_pos hsearch]
        rw [if_neg hsearch,if_neg hsearch]
        by_cases hname : nameMax < c.bytes.length
        · rw [if_pos hname,if_pos hname]
        rw [if_neg hname,if_neg hname]
        cases es.lookup c with
        | none => rfl
        | some d => cases d <;> rfl
      | file | symlink | special => simp only [descend,hn]
  rw [namei,if_neg hc.ne_nil,if_neg hhead,comps_name,hwalk]
  unfold entryLoc
  rfl

theorem namei_root (root : Node) (maxLinks : ℕ) :
    namei root false maxLinks [] [separator] = .ok [] := by
  cases maxLinks <;> rfl

namespace Mount
variable (m : Mount)

/-- The host, with the root of `w` mounted. The host's own limit on links applies. -/
def place (w : World) : World :=
  {w with
    env := {w.env with maxLinks := m.maxLinks}
    root := m.root.modify (fun _ => w.root) m.loc
    fds := w.fds.map fun e => (e.1,m.loc ++ e.2)}

theorem get_place (w : World) (loc : Loc) : (m.place w).root.get (m.loc ++ loc) = w.root.get loc := by
  rw [place,Node.get_modify_append]
  cases h : m.root.get m.loc with
  | none => have := m.here; rw [h] at this; cases this
  | some n => rfl

/-- What is neither above nor below the mount is the host's. -/
theorem get_place_apart (w : World) {q : Loc} (hm : ¬m.loc <+: q) (hq : ¬q <+: m.loc) :
    (m.place w).root.get q = m.root.get q := Node.get_modify_of_apart _ _ hm hq

/-- A directory above the mount keeps its attributes and the names in it. -/
theorem get_place_above (w : World) {q : Loc} (hq : q <+: m.loc) (hne : q ≠ m.loc) :
    ((m.place w).root.get q).map (fun n => (n.attr,n.entries.map Prod.fst)) =
      (m.root.get q).map fun n => (n.attr,n.entries.map Prod.fst) := by
  obtain ⟨r,hr⟩ := hq
  obtain ⟨name,p,rfl⟩ : ∃ name p, r = name :: p := by
    cases r with
    | nil => exact absurd (by rw [← hr,List.append_nil]) hne
    | cons name p => exact ⟨name,p,rfl⟩
  have hget : (m.place w).root.get q = (m.root.get q).map fun c =>
      c.modify (fun _ => w.root) (name :: p) := by
    change (m.root.modify _ m.loc).get q = _
    rw [← hr,Node.get_modify_above]
  rw [hget,Option.map_map]
  congr 1
  funext n
  exact Prod.ext (Node.attr_modify_cons n _ name p) (Node.names_modify_cons n _ name p)

theorem locOf_place (w : World) (fd : ℕ) :
    (m.place w).locOf fd = (w.locOf fd).map fun loc => m.loc ++ loc := by
  rw [World.locOf,World.locOf,place]
  have hlookup (l : List (ℕ × Loc)) : (l.map fun e => (e.1,m.loc ++ e.2)).lookup fd =
      (l.lookup fd).map fun loc => m.loc ++ loc := by
    induction l with
    | nil => rfl
    | cons e l ih =>
      rw [List.map_cons,List.lookup_cons,List.lookup_cons,ih]
      cases fd == e.1 <;> rfl
  rw [hlookup]
  cases w.fds.lookup fd <;> rfl

theorem update_place (w : World) (loc : Loc) (f : Node → Node) :
    (m.place w).update (m.loc ++ loc) f = m.place (w.update loc f) := by
  rw [World.update,place,Node.modify_append,Node.modify_modify]
  rfl

theorem setEntries_place (f : List (Name × Node) → List (Name × Node)) (w : World) (loc : Loc) :
    (m.place w).setEntries f (m.loc ++ loc) = m.place (w.setEntries f loc) :=
  m.update_place w loc _

theorem alloc_place (w : World) (loc : Loc) :
    (m.place w).alloc (m.loc ++ loc) = ((w.alloc loc).1,m.place (w.alloc loc).2) := rfl

theorem dropLast_loc (loc : Loc) (c : Name) :
    (m.loc ++ (loc ++ [c])).dropLast = m.loc ++ (loc ++ [c]).dropLast := by
  rw [← List.append_assoc,List.dropLast_concat,List.dropLast_concat]

theorem link_place (w : World) (loc : Loc) (c : Name) (n : Node) :
    (m.place w).link (m.loc ++ (loc ++ [c])) n = m.place (w.link (loc ++ [c]) n) := by
  rw [World.link,World.link,m.dropLast_loc,← List.append_assoc,List.getLast?_concat,
    List.getLast?_concat]
  exact m.setEntries_place _ w _

theorem unlink_place (w : World) (loc : Loc) (c : Name) :
    (m.place w).unlink (m.loc ++ (loc ++ [c])) = m.place (w.unlink (loc ++ [c])) := by
  rw [World.unlink,World.unlink,m.dropLast_loc,← List.append_assoc,List.getLast?_concat,
    List.getLast?_concat]
  exact m.setEntries_place _ w _

theorem writable_place (w : World) (loc : Loc) (c : Name) :
    (m.place w).writable (m.loc ++ (loc ++ [c])) = w.writable (loc ++ [c]) := by
  rw [World.writable,World.writable,m.dropLast_loc,m.get_place]

/-- A call does in the host what it does in the tree. -/
def Commutes {α : Type} (f g : World → Except Errno (α × World)) : Prop :=
  ∀ w, f (m.place w) = (g w).map fun p => (p.1,m.place p.2)

/-- A plain name leads to the same entry in the host. -/
theorem commutes_resolving {α : Type} (c : Name) (fd : ℕ)
    {f g : Loc → World → Except Errno (α × World)}
    (hfg : ∀ loc w, f (m.loc ++ (loc ++ [c])) (m.place w) =
      (g (loc ++ [c]) w).map fun p => (p.1,m.place p.2)) :
    m.Commutes (World.resolving false (some fd) c.bytes f) (World.resolving false (some fd) c.bytes g) := by
  intro w
  unfold World.resolving
  rw [World.base,World.base,m.locOf_place]
  cases hloc : w.locOf fd with
  | error e => rfl
  | ok loc =>
    change (namei (m.place w).root false _ (m.loc ++ loc) c.bytes >>= fun loc => f loc (m.place w)) =
      Except.map _ (namei w.root false _ loc c.bytes >>= fun loc => g loc w)
    rw [namei_name,namei_name,m.get_place]
    unfold entryLoc
    by_cases hlen : pathMax ≤ c.bytes.length
    · simp only [if_pos hlen]
      rfl
    simp only [if_neg hlen]
    cases w.root.get loc with
    | none => rfl
    | some n =>
      cases n with
      | dir a es =>
        dsimp only
        split_ifs
        · rfl
        · rfl
        · rw [List.append_assoc]
          exact hfg loc w
      | file | symlink | special => rfl

theorem openLoc_place (flags : Flags) (mode : Mode) (loc : Loc) (c : Name) (w : World) :
    World.openLoc flags mode (m.loc ++ (loc ++ [c])) (m.place w) =
      (World.openLoc flags mode (loc ++ [c]) w).map fun p => (p.1,m.place p.2) := by
  unfold World.openLoc
  rw [m.get_place,m.writable_place]
  cases w.root.get (loc ++ [c]) with
  | some n =>
    dsimp only
    split_ifs
    · rfl
    · cases World.openNode n flags <;> rfl
  | none =>
    dsimp only
    split_ifs
    · have hlink := m.link_place w loc c (.file (w.newAttr mode) [])
      cases w.writable (loc ++ [c]) with
      | error e => rfl
      | ok u =>
        change Except.ok (World.alloc (World.link _ _ (.file (w.newAttr mode) [])) _) = _
        rw [hlink]
        rfl
    · rfl

theorem openAt_commutes (c : Name) (fd : ℕ) {flags : Flags} (mode : Mode)
    (hflags : flags.nofollow = true) :
    m.Commutes (World.openAt (some fd) c.bytes flags mode) (World.openAt (some fd) c.bytes flags mode) := by
  unfold World.openAt
  rw [hflags]
  exact m.commutes_resolving c fd fun loc w => m.openLoc_place flags mode loc c w

theorem mkdirAt_commutes (c : Name) (fd : ℕ) (mode : Mode) :
    m.Commutes (World.mkdirAt (some fd) c.bytes mode) (World.mkdirAt (some fd) c.bytes mode) := by
  refine m.commutes_resolving c fd fun loc w => ?_
  unfold World.mkdirLoc
  rw [m.get_place,m.writable_place]
  cases w.root.get (loc ++ [c]) with
  | some n => rfl
  | none =>
    have hlink := m.link_place w loc c (.dir (w.newAttr mode) [])
    cases w.writable (loc ++ [c]) with
    | error e => rfl
    | ok u => exact congrArg (fun v => Except.ok ((),v)) hlink

theorem unlinkAt_commutes (c : Name) (fd : ℕ) :
    m.Commutes (World.unlinkAt (some fd) c.bytes) (World.unlinkAt (some fd) c.bytes) := by
  refine m.commutes_resolving c fd fun loc w => ?_
  unfold World.unlinkLoc
  rw [m.get_place,m.writable_place]
  cases w.root.get (loc ++ [c]) with
  | none => rfl
  | some n =>
    have hunlink := m.unlink_place w loc c
    cases w.writable (loc ++ [c]) with
    | error e => rfl
    | ok u =>
      change (if n.isDir = true then Except.error Errno.eisdir else _) =
        Except.map _ (if n.isDir = true then Except.error Errno.eisdir else _)
      split_ifs
      · rfl
      · exact congrArg (fun v => Except.ok ((),v)) hunlink

theorem statAt_commutes (c : Name) (fd : ℕ) :
    m.Commutes (World.statAt (some fd) c.bytes) (World.statAt (some fd) c.bytes) := by
  refine m.commutes_resolving c fd fun loc w => ?_
  unfold World.statLoc
  rw [m.get_place]
  cases w.root.get (loc ++ [c]) <;> rfl

theorem renameAt_commutes (c d : Name) (src dst : ℕ) :
    m.Commutes (World.renameAt (some src) c.bytes (some dst) d.bytes)
      (World.renameAt (some src) c.bytes (some dst) d.bytes) := by
  refine m.commutes_resolving c src fun old w => ?_
  refine m.commutes_resolving d dst (fun new w => ?_) w
  unfold World.renameLoc
  rw [m.get_place,m.get_place,m.writable_place,m.writable_place]
  cases w.root.get (old ++ [c]) with
  | none => rfl
  | some n =>
    cases w.writable (old ++ [c]) with
    | error e => rfl
    | ok u =>
      cases w.writable (new ++ [d]) with
      | error e => rfl
      | ok u =>
        have hmove : ((m.place w).unlink (m.loc ++ (old ++ [c]))).link (m.loc ++ (new ++ [d])) n =
            m.place ((w.unlink (old ++ [c])).link (new ++ [d]) n) := by
          rw [m.unlink_place,m.link_place]
        simp only [List.append_cancel_left_eq,List.prefix_append_right_inj]
        change (if _ then _ else if _ then _ else
            World.replaceable n (w.root.get (new ++ [d])) >>= fun _ => Except.ok ((),World.link _ _ n)) =
          Except.map _ (if _ then _ else if _ then _ else
            World.replaceable n (w.root.get (new ++ [d])) >>= fun _ => Except.ok ((),World.link _ _ n))
        rw [hmove]
        split_ifs
        · rfl
        · rfl
        · cases World.replaceable n (w.root.get (new ++ [d])) <;> rfl

theorem nodeOf_place (w : World) (fd : ℕ) : (m.place w).nodeOf fd = w.nodeOf fd := by
  unfold World.nodeOf
  rw [m.locOf_place]
  cases w.locOf fd with
  | error e => rfl
  | ok loc =>
    dsimp only [bind,Except.bind,Except.map]
    rw [m.get_place]

theorem fstat_commutes (fd : ℕ) : m.Commutes (World.fstat fd) (World.fstat fd) := by
  intro w
  unfold World.fstat
  rw [m.nodeOf_place]
  cases w.nodeOf fd <;> rfl

theorem getdents_commutes (fd : ℕ) : m.Commutes (World.getdents fd) (World.getdents fd) := by
  intro w
  unfold World.getdents
  rw [m.nodeOf_place]
  cases w.nodeOf fd with
  | error e => rfl
  | ok n =>
    change (if n.isDir = true then _ else _) = Except.map _ (if n.isDir = true then _ else _)
    split_ifs <;> rfl

theorem append_commutes (fd : ℕ) (bytes : Bytes) :
    m.Commutes (World.append fd bytes) (World.append fd bytes) := by
  intro w
  unfold World.append
  rw [m.locOf_place]
  cases w.locOf fd with
  | error e => rfl
  | ok loc =>
    dsimp only [bind,Except.bind,Except.map]
    rw [m.get_place]
    cases w.root.get loc with
    | none => rfl
    | some n =>
      cases n with
      | file a content => exact congrArg (fun v => Except.ok ((),v)) (m.update_place w loc _)
      | dir | symlink | special => rfl

theorem close_place (w : World) (fd : ℕ) : (m.place w).close fd = m.place (w.close fd) := by
  have hfds : (m.place w).fds.filter (fun e => e.1 ≠ fd) =
      (w.fds.filter fun e => e.1 ≠ fd).map fun e => (e.1,m.loc ++ e.2) := by
    change (w.fds.map _).filter _ = _
    rw [List.filter_map]
    rfl
  rw [World.close,hfds]
  rfl

/-- The path of the mount opens the root of the tree. -/
theorem openAt_path {flags : Flags} (mode : Mode) (hflags : flags.nofollow = true) (w : World) :
    World.openAt none m.path flags mode (m.place w) =
      (World.openAt none [separator] flags mode w).map fun p => (p.1,m.place p.2) := by
  unfold World.openAt World.resolving
  rw [hflags]
  have hroot : (m.place w).root.get m.loc = some w.root := by
    have h := m.get_place w []
    rwa [List.append_nil] at h
  have hpath : namei (m.place w).root false (m.place w).env.maxLinks [] m.path = .ok m.loc :=
    m.resolves w.root
  change (namei _ false _ [] m.path >>= fun loc => World.openLoc flags mode loc (m.place w)) =
    Except.map _ (namei _ false _ [] [separator] >>= fun loc => World.openLoc flags mode loc w)
  rw [hpath,namei_root]
  change World.openLoc flags mode m.loc (m.place w) = (World.openLoc flags mode [] w).map _
  unfold World.openLoc
  rw [hroot]
  dsimp only [Node.get_nil]
  split_ifs
  · rfl
  · have halloc : (m.place w).alloc m.loc = ((w.alloc []).1,m.place (w.alloc []).2) := by
      have h := m.alloc_place w []
      rwa [List.append_nil] at h
    rw [halloc]
    cases World.openNode w.root flags <;> rfl

end Mount
end Posix
