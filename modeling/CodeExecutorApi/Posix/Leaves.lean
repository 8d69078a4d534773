import Mathlib.Data.Set.BooleanAlgebra
import Mathlib.Data.Set.Insert
import Mathlib.Order.CompletePartialOrder
import Mathlib.Logic.Function.Basic
import CodeExecutorApi.Posix.Change

/-! What a tree holds besides directories, and the directories that can be walked to. -/
namespace Posix

/-- What is at a place, unless it is a directory. -/
def Node.leaf (t : Node) (loc : Loc) : Option Node := (t.get loc).filter fun n => !n.isDir

/-- What a regular file or a symbolic link holds. -/
def Node.data : Node → Option (FileType × Bytes)
  | .file _ content => some (.regular,content)
  | .symlink _ target => some (.symlink,target)
  | .dir .. | .special .. => none

def Node.dirs (t : Node) : Set Loc := {loc | ∃ a es, t.get loc = some (.dir a es)}

/-- Every directory stays, with its mode. -/
def Stays (t t' : Node) : Prop :=
  ∀ loc a es, t.get loc = some (.dir a es) →
    ∃ a' es', t'.get loc = some (.dir a' es') ∧ a'.mode = a.mode

/-- The directories on the way to a place can be opened and searched, and it can be opened too. -/
def Enterable (t : Node) (loc : Loc) : Prop :=
  ∀ k, k <+: loc → ∃ a es, t.get k = some (.dir a es) ∧ a.mode.read = true ∧
    (k ≠ loc → a.mode.search = true)

section Leaf
variable {t t' : Node} {loc : Loc}

theorem Node.leaf_eq_some {n : Node} : t.leaf loc = some n ↔ t.get loc = some n ∧ n.isDir = false := by
  rw [leaf,Option.filter_eq_some_iff,Bool.not_eq_true']

theorem Node.leaf_of_dir {a : Attr} {es : List (Name × Node)} (h : t.get loc = some (.dir a es)) :
    t.leaf loc = none := by
  rw [leaf,h]
  rfl

theorem Node.leaf_of_none (h : t.get loc = none) : t.leaf loc = none := by
  rw [leaf,h]
  rfl

theorem Node.leaf_of_get {n : Node} (h : t.get loc = some n) (hn : n.isDir = false) :
    t.leaf loc = some n := leaf_eq_some.mpr ⟨h,hn⟩

theorem Node.leaf_congr (h : t'.get loc = t.get loc) : t'.leaf loc = t.leaf loc := by
  rw [leaf,leaf,h]

/-- What is no directory and no leaf is not there. -/
theorem Node.get_eq_none (hdir : loc ∉ t.dirs) (hleaf : t.leaf loc = none) : t.get loc = none := by
  cases hn : t.get loc with
  | none => rfl
  | some n =>
    cases n with
    | dir a es => exact absurd ⟨a,es,hn⟩ hdir
    | file | symlink | special =>
      rw [leaf_of_get hn rfl] at hleaf
      cases hleaf

/-- Above a directory there are directories. -/
theorem Node.mem_dirs_of_prefix {k : Loc} (h : loc ∈ t.dirs) (hk : k <+: loc) : k ∈ t.dirs := by
  obtain ⟨r,rfl⟩ := hk
  obtain ⟨a,es,hget⟩ := h
  rw [Node.get_append] at hget
  obtain ⟨n,hn,hget⟩ := Option.bind_eq_some_iff.mp hget
  cases n with
  | dir b bs => exact ⟨b,bs,hn⟩
  | file | symlink | special => cases r <;> cases hget

end Leaf

namespace Stays
variable {t t' t'' : Node} {loc : Loc}

theorem refl (t : Node) : Stays t t := fun _ a es h => ⟨a,es,h,rfl⟩

theorem trans (h : Stays t t') (h' : Stays t' t'') : Stays t t'' := by
  intro loc a es hget
  obtain ⟨a',es',hget',hmode⟩ := h loc a es hget
  obtain ⟨a'',es'',hget'',hmode'⟩ := h' loc a' es' hget'
  exact ⟨a'',es'',hget'',hmode'.trans hmode⟩

theorem enterable (h : Stays t t') (he : Enterable t loc) : Enterable t' loc := by
  intro k hk
  obtain ⟨a,es,hget,hread,hsearch⟩ := he k hk
  obtain ⟨a',es',hget',hmode⟩ := h k a es hget
  exact ⟨a',es',hget',hmode ▸ hread,fun hne => hmode ▸ hsearch hne⟩

end Stays

namespace Enterable
variable {t : Node} {loc : Loc} {c : Name} {a b : Attr} {es bs : List (Name × Node)}

theorem dir (h : Enterable t loc) : ∃ a es, t.get loc = some (.dir a es) ∧ a.mode.read = true := by
  obtain ⟨a,es,hget,hread,_⟩ := h loc List.prefix_rfl
  exact ⟨a,es,hget,hread⟩

theorem root (h : t.get [] = some (.dir a es)) (hread : a.mode.read = true) : Enterable t [] := by
  intro k hk
  rw [List.prefix_nil.mp hk]
  exact ⟨a,es,h,hread,fun hne => absurd rfl hne⟩

theorem step (h : Enterable t loc) (hdir : t.get loc = some (.dir a es))
    (hsearch : a.mode.search = true) (hget : t.get (loc ++ [c]) = some (.dir b bs))
    (hread : b.mode.read = true) : Enterable t (loc ++ [c]) := by
  intro k hk
  rcases List.prefix_concat_iff.mp hk with rfl | hk
  · exact ⟨b,bs,hget,hread,fun hne => absurd rfl hne⟩
  · by_cases hloc : k = loc
    · subst k
      obtain ⟨a',es',hget',hread',_⟩ := h loc hk
      rw [hdir] at hget'
      obtain ⟨rfl,rfl⟩ := Node.dir.inj (Option.some.inj hget')
      exact ⟨a,es,hdir,hread',fun _ => hsearch⟩
    · obtain ⟨a',es',hget',hread',hsearch'⟩ := h k hk
      exact ⟨a',es',hget',hread',fun _ => hsearch' hloc⟩

end Enterable

section Change
variable {mode : Mode} {d loc : Loc} {c : Name} {o : Option Node} {t t' : Node}

theorem Grown.leaf (h : Grown mode d t t') : t'.leaf = t.leaf := by
  funext k
  by_cases hk : k <+: d
  · cases hn : t.get k with
    | none =>
      rw [Node.leaf_of_none hn]
      rcases (h.above k hk).missing hn with hnone | ⟨a,es,hdir,_⟩
      · exact Node.leaf_of_none hnone
      · exact Node.leaf_of_dir hdir
    | some n =>
      cases hd : n.isDir with
      | true =>
        cases n with
        | dir a es =>
          obtain ⟨a',es',hdir,_⟩ := (h.above k hk).dir a es hn
          rw [Node.leaf_of_dir hn,Node.leaf_of_dir hdir]
        | file | symlink | special => cases hd
      | false => exact Node.leaf_congr (((h.above k hk).other n hn hd).trans hn.symm)
  · exact Node.leaf_congr (h.beside k hk)

/-- Once the way is there, its places are the new directories. -/
theorem Grown.dirs (h : Grown mode d t t') (hd : d ∈ t'.dirs) :
    t'.dirs = t.dirs ∪ {k | k <+: d} := by
  ext k
  by_cases hk : k <+: d
  · exact iff_of_true (Node.mem_dirs_of_prefix hd hk) (.inr hk)
  · change (∃ a es, t'.get k = _) ↔ (∃ a es, t.get k = _) ∨ k <+: d
    rw [h.beside k hk,or_iff_left hk]

theorem Grown.stays (h : Grown mode d t t') : Stays t t' := by
  intro k a es hget
  by_cases hk : k <+: d
  · obtain ⟨a',es',hdir,hkept⟩ := (h.above k hk).dir a es hget
    exact ⟨a',es',hdir,hkept.mode⟩
  · exact ⟨a,es,(h.beside k hk).trans hget,rfl⟩

/-- Touching a directory is growing nothing, whatever mode new directories would have. -/
theorem Touched.grown (h : Touched loc t t') : Grown ⟨true,true,true⟩ loc t t' :=
  .of_touched h List.prefix_rfl

/-- One leaf was put, replaced or taken away. -/
theorem Relinked.leaf (h : Relinked loc c o t t')
    (hold : ∀ n, t.get (loc ++ [c]) = some n → n.isDir = false)
    (hnew : ∀ n, o = some n → n.isDir = false) :
    t'.leaf = Function.update t.leaf (loc ++ [c]) o := by
  funext k
  by_cases hk : k = loc ++ [c]
  · subst k
    rw [Function.update_self]
    have hget := h.get_entry []
    cases o with
    | none => exact Node.leaf_of_none hget
    | some n => exact Node.leaf_of_get hget (hnew n rfl)
  · rw [Function.update_of_ne hk]
    by_cases hloc : k <+: loc
    · obtain ⟨a,es,a',es',hdir,hdir',_⟩ := h.get_above hloc
      rw [Node.leaf_of_dir hdir,Node.leaf_of_dir hdir']
    · exact Node.leaf_congr (h.get_off hold hnew hk hloc)

theorem Relinked.stays (h : Relinked loc c o t t')
    (hold : ∀ n, t.get (loc ++ [c]) = some n → n.isDir = false)
    (hnew : ∀ n, o = some n → n.isDir = false) : Stays t t' := by
  intro k a es hget
  by_cases hk : k = loc ++ [c]
  · subst k
    cases hold _ hget
  by_cases hloc : k <+: loc
  · obtain ⟨b,bs,b',bs',hdir,hdir',hkept⟩ := h.get_above hloc
    cases hdir.symm.trans hget
    exact ⟨b',bs',hdir',hkept.mode⟩
  · exact ⟨a,es,(h.get_off hold hnew hk hloc).trans hget,rfl⟩

theorem Relinked.dirs (h : Relinked loc c o t t')
    (hold : ∀ n, t.get (loc ++ [c]) = some n → n.isDir = false)
    (hnew : ∀ n, o = some n → n.isDir = false) : t'.dirs = t.dirs := by
  ext k
  by_cases hk : k = loc ++ [c]
  · subst k
    constructor
    · rintro ⟨a,es,hget⟩
      have hentry := h.get_entry []
      rw [hget] at hentry
      cases o with
      | none => cases hentry
      | some n =>
        have hn : Node.dir a es = n := Option.some.inj hentry
        cases hn
        cases hnew _ rfl
    · rintro ⟨a,es,hget⟩
      cases hold _ hget
  by_cases hloc : k <+: loc
  · obtain ⟨a,es,a',es',hdir,hdir',_⟩ := h.get_above hloc
    exact ⟨fun _ => ⟨a,es,hdir⟩,fun _ => ⟨a',es',hdir'⟩⟩
  · change (∃ a es, t'.get k = _) ↔ ∃ a es, t.get k = _
    rw [h.get_off hold hnew hk hloc]

/-- A directory was made where nothing was. -/
theorem Relinked.dirs_insert {a : Attr} (h : Relinked loc c (some (.dir a [])) t t')
    (hnone : t.get (loc ++ [c]) = none) : t'.dirs = insert (loc ++ [c]) t.dirs := by
  have hg := Grown.of_relinked h hnone rfl (List.prefix_refl (loc ++ [c]))
  ext k
  by_cases hk : k = loc ++ [c]
  · subst k
    exact ⟨fun _ => Set.mem_insert _ _,fun _ => ⟨a,[],h.get_entry []⟩⟩
  rw [Set.mem_insert_iff,or_iff_right hk]
  by_cases hloc : k <+: loc
  · obtain ⟨a,es,a',es',hdir,hdir',_⟩ := h.get_above hloc
    exact ⟨fun _ => ⟨a,es,hdir⟩,fun _ => ⟨a',es',hdir'⟩⟩
  · have hoff : ¬k <+: loc ++ [c] := fun hp => (List.prefix_concat_iff.mp hp).elim hk hloc
    change (∃ a es, t'.get k = _) ↔ ∃ a es, t.get k = _
    rw [hg.beside k hoff]

theorem Relinked.dirs_ssubset {a : Attr} (h : Relinked loc c (some (.dir a [])) t t')
    (hnone : t.get (loc ++ [c]) = none) : t.dirs ⊂ t'.dirs := by
  rw [h.dirs_insert hnone]
  refine Set.ssubset_insert fun ⟨a,es,hget⟩ => ?_
  rw [hnone] at hget
  cases hget

theorem Touched.dirs (h : Touched loc t t') : t'.dirs = t.dirs := by
  ext k
  by_cases hloc : k <+: loc
  · obtain ⟨a,es,a',es',hdir,hdir',_⟩ := (h.relinked ⟨[0x61],by decide⟩).get_above hloc
    exact ⟨fun _ => ⟨a,es,hdir⟩,fun _ => ⟨a',es',hdir'⟩⟩
  · change (∃ a es, t'.get k = _) ↔ ∃ a es, t.get k = _
    rw [h.grown.beside k hloc]

/-- Nothing was there before. -/
theorem Relinked.added {n : Node} (h : Relinked loc c (some n) t t') (hn : n.isDir = false)
    (hnone : t.get (loc ++ [c]) = none) :
    t'.leaf = Function.update t.leaf (loc ++ [c]) (some n) ∧ Stays t t' := by
  have hold : ∀ m, t.get (loc ++ [c]) = some m → m.isDir = false := by
    intro m hm
    rw [hnone] at hm
    cases hm
  have hnew : ∀ m, some n = some m → m.isDir = false := by
    intro m hm
    cases hm
    exact hn
  exact ⟨h.leaf hold hnew,h.stays hold hnew⟩

/-- The leaf that was there is gone. -/
theorem Relinked.removed {n : Node} (h : Relinked loc c none t t')
    (hget : t.get (loc ++ [c]) = some n) (hn : n.isDir = false) :
    t'.leaf = Function.update t.leaf (loc ++ [c]) none ∧ Stays t t' := by
  have hold : ∀ m, t.get (loc ++ [c]) = some m → m.isDir = false := by
    intro m hm
    cases hget.symm.trans hm
    exact hn
  exact ⟨h.leaf hold nofun,h.stays hold nofun⟩

/-- Another entry of the same directory. -/
theorem Relinked.get_sibling {d : Name} (h : Relinked loc c o t t') (hcd : c ≠ d) :
    t'.get (loc ++ [d]) = t.get (loc ++ [d]) := by
  refine h.get_beside ?_ fun hp => ?_
  · rw [List.prefix_append_right_inj]
    exact fun hp => hcd (List.cons_prefix_cons.mp hp).1
  · have := hp.length_le
    rw [List.length_append,List.length_singleton] at this
    omega

/-- The entry `c`, which is `n`, was renamed to `d`. -/
structure Renamed (loc : Loc) (c d : Name) (n : Node) (t t' : Node) : Prop where
  old : t.get (loc ++ [c]) = some n
  file : n.isDir = false
  replaced : ∀ m, t.get (loc ++ [d]) = some m → m.isDir = false
  moved : c = d ∧ t' = t ∨
    c ≠ d ∧ ∃ s, Relinked loc c none t s ∧ Relinked loc d (some n) s t'

namespace Renamed
variable {d : Name} {n : Node}

theorem leaf (h : Renamed loc c d n t t') : t'.leaf =
    Function.update (Function.update t.leaf (loc ++ [c]) none) (loc ++ [d]) (some n) := by
  rcases h.moved with ⟨rfl,rfl⟩ | ⟨hcd,s,hgone,hput⟩
  · rw [Function.update_idem,← Node.leaf_of_get h.old h.file,Function.update_eq_self]
  · have hold : ∀ m, t.get (loc ++ [c]) = some m → m.isDir = false := by
      intro m hm
      cases h.old.symm.trans hm
      exact h.file
    rw [hput.leaf (fun m hm => h.replaced m (hgone.get_sibling hcd ▸ hm)) ?_,hgone.leaf hold nofun]
    intro m hm
    cases hm
    exact h.file

theorem stays (h : Renamed loc c d n t t') : Stays t t' := by
  rcases h.moved with ⟨rfl,rfl⟩ | ⟨hcd,s,hgone,hput⟩
  · exact .refl t'
  · have hold : ∀ m, t.get (loc ++ [c]) = some m → m.isDir = false := by
      intro m hm
      cases h.old.symm.trans hm
      exact h.file
    refine (hgone.stays hold nofun).trans
      (hput.stays (fun m hm => h.replaced m (hgone.get_sibling hcd ▸ hm)) ?_)
    intro m hm
    cases hm
    exact h.file

theorem dirs (h : Renamed loc c d n t t') : t'.dirs = t.dirs := by
  rcases h.moved with ⟨rfl,rfl⟩ | ⟨hcd,s,hgone,hput⟩
  · rfl
  · have hold : ∀ m, t.get (loc ++ [c]) = some m → m.isDir = false := by
      intro m hm
      cases h.old.symm.trans hm
      exact h.file
    have hnew : ∀ m, some n = some m → m.isDir = false := by
      intro m hm
      cases hm
      exact h.file
    rw [hput.dirs (fun m hm => h.replaced m (hgone.get_sibling hcd ▸ hm)) hnew,
      hgone.dirs hold nofun]

theorem gone (h : Renamed loc c d n t t') (hcd : c ≠ d) : t'.get (loc ++ [c]) = none := by
  rcases h.moved with ⟨heq,_⟩ | ⟨_,s,hgone,hput⟩
  · exact absurd heq hcd
  · rw [hput.get_sibling (Ne.symm hcd)]
    exact hgone.get_entry []

end Renamed
end Change
end Posix
