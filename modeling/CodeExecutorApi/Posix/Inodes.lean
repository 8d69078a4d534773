import Mathlib.Data.Set.Insert
import CodeExecutorApi.Posix.Modes
import CodeExecutorApi.Python.Later

/-! Regular files by their inode numbers, and which of them the calls of a process write to that
writes to the files it has created only. -/
namespace Posix

/-- The name at `loc` leads to a regular file with this inode and this content. -/
def Node.Names (t : Node) (loc : Loc) (ino : ℕ) (content : Bytes) : Prop :=
  ∃ a, t.get loc = some (.file a content) ∧ a.ino = ino

/-- Some name does. -/
def Node.Stores (t : Node) (ino : ℕ) (content : Bytes) : Prop := ∃ loc, t.Names loc ino content

/-- At most one name does. -/
def Node.Single (t : Node) (ino : ℕ) : Prop :=
  ∀ k k' content content', t.Names k ino content → t.Names k' ino content' → k = k'

section Names
variable {t n : Node} {loc k r : Loc} {ino : ℕ} {content : Bytes}

theorem Node.Names.of_get (h : t.get loc = some n) (hn : n.Names r ino content) :
    t.Names (loc ++ r) ino content := by
  obtain ⟨a,hget,ha⟩ := hn
  exact ⟨a,by rw [Node.get_append,h]; exact hget,ha⟩

theorem names_file {a : Attr} {bytes : Bytes} :
    (Node.file a bytes).Names r ino content ↔ r = [] ∧ a.ino = ino ∧ bytes = content := by
  constructor
  · rintro ⟨b,hget,hb⟩
    cases r with
    | nil =>
      cases hget
      exact ⟨rfl,hb,rfl⟩
    | cons c r => cases hget
  · rintro ⟨rfl,ha,rfl⟩
    exact ⟨a,rfl,ha⟩

theorem names_dir {a : Attr} {es : List (Name × Node)} :
    (Node.dir a es).Names r ino content ↔
      ∃ c n r', r = c :: r' ∧ es.lookup c = some n ∧ n.Names r' ino content := by
  constructor
  · rintro ⟨b,hget,hb⟩
    cases r with
    | nil => cases hget
    | cons c r =>
      obtain ⟨n,hn,hget⟩ := Option.bind_eq_some_iff.mp hget
      exact ⟨c,n,r,rfl,hn,b,hget,hb⟩
  · rintro ⟨c,n,r',rfl,hn,b,hget,hb⟩
    refine ⟨b,?_,hb⟩
    rw [Node.get_cons,Node.child,Node.entries,hn]
    exact hget

theorem Node.Stores.of_get (h : t.get loc = some n) (hn : n.Stores ino content) :
    t.Stores ino content := by
  obtain ⟨r,hn⟩ := hn
  exact ⟨loc ++ r,.of_get h hn⟩

theorem stores_file {a : Attr} {bytes : Bytes} :
    (Node.file a bytes).Stores ino content ↔ a.ino = ino ∧ bytes = content := by
  constructor
  · rintro ⟨r,hn⟩
    exact (names_file.mp hn).2
  · exact fun h => ⟨[],names_file.mpr ⟨rfl,h⟩⟩

theorem stores_dir {a : Attr} {es : List (Name × Node)} :
    (Node.dir a es).Stores ino content ↔
      ∃ c n, es.lookup c = some n ∧ n.Stores ino content := by
  constructor
  · rintro ⟨r,hn⟩
    obtain ⟨c,n,r',-,hc,hn⟩ := names_dir.mp hn
    exact ⟨c,n,hc,r',hn⟩
  · rintro ⟨c,n,hc,r,hn⟩
    exact ⟨c :: r,names_dir.mpr ⟨c,n,r,rfl,hc,hn⟩⟩

/-- Rewriting an entry adds no name but those of the new entry. -/
theorem names_modify {f : Node → Node} (h : (t.modify f loc).Names k ino content) :
    ¬loc <+: k ∧ t.Names k ino content ∨
      ∃ r n, k = loc ++ r ∧ t.get loc = some n ∧ (f n).Names r ino content := by
  obtain ⟨a,hget,ha⟩ := h
  by_cases hk : loc <+: k
  · obtain ⟨r,rfl⟩ := hk
    rw [Node.get_modify_append] at hget
    obtain ⟨n,hn,hget⟩ := Option.bind_eq_some_iff.mp hget
    exact .inr ⟨r,n,rfl,hn,a,hget,ha⟩
  refine .inl ⟨hk,a,?_,ha⟩
  by_cases hk' : k <+: loc
  · -- above the entry there are directories
    obtain ⟨r,rfl⟩ := hk'
    cases r with
    | nil => exact absurd (by simp) hk
    | cons c r =>
      rw [Node.get_modify_above] at hget
      obtain ⟨n,hn,hget⟩ := Option.map_eq_some_iff.mp hget
      cases hc : n.child c with
      | none =>
        rw [Node.modify_cons_of_none f r hc] at hget
        rw [hn,hget]
      | some m =>
        rw [Node.modify_cons_of_child f r hc] at hget
        cases hget
  · rw [← hget,Node.get_modify_of_apart t f hk hk']

/-- What keeps the inodes of an entry keeps every name with its inode. -/
theorem names_modify_kept {f : Node → Node}
    (hf : ∀ n r content, (f n).Names r ino content → ∃ content', n.Names r ino content')
    (h : (t.modify f loc).Names k ino content) : ∃ content', t.Names k ino content' := by
  rcases names_modify h with ⟨-,h⟩ | ⟨r,n,rfl,hn,h⟩
  · exact ⟨content,h⟩
  · obtain ⟨content',h⟩ := hf n r content h
    exact ⟨content',.of_get hn h⟩

theorem stores_modify {f : Node → Node} (h : (t.modify f loc).Stores ino content) :
    t.Stores ino content ∨ ∃ n, t.get loc = some n ∧ (f n).Stores ino content := by
  obtain ⟨k,h⟩ := h
  rcases names_modify h with ⟨-,h⟩ | ⟨r,n,-,hn,h⟩
  · exact .inl ⟨k,h⟩
  · exact .inr ⟨n,hn,r,h⟩

theorem names_chmod {mode : Mode} {now : ℤ} (h : (n.chmod mode now).Names r ino content) :
    n.Names r ino content := by
  cases n with
  | file a bytes =>
    obtain ⟨hr,hino,hbytes⟩ := names_file.mp h
    exact names_file.mpr ⟨hr,hino,hbytes⟩
  | dir a es => exact names_dir.mpr (names_dir.mp h)
  | symlink | special =>
    obtain ⟨b,hget,hb⟩ := h
    cases r <;> cases hget

end Names

namespace World
variable {w : World} {loc k : Loc} {ino : ℕ} {content : Bytes}

theorem names_setEntries {f : List (Name × Node) → List (Name × Node)}
    (h : (w.setEntries f loc).root.Names k ino content) :
    (∀ a es, w.root.get loc = some (.dir a es) → ¬loc <+: k) ∧ w.root.Names k ino content ∨
      ∃ a es c n r, w.root.get loc = some (.dir a es) ∧ k = loc ++ c :: r ∧
        (f es).lookup c = some n ∧ n.Names r ino content := by
  rcases names_modify h with ⟨hk,h⟩ | ⟨r,n,rfl,hn,h⟩
  · exact .inl ⟨fun _ _ _ => hk,h⟩
  cases n with
  | dir a es =>
    obtain ⟨c,m,r',rfl,hm,h⟩ := names_dir.mp h
    exact .inr ⟨a,es,c,m,r',hn,rfl,hm,h⟩
  | file | symlink | special =>
    refine .inl ⟨fun a es hdir => ?_,.of_get hn h⟩
    cases hn.symm.trans hdir

/-- A new name adds only the names of what it leads to. -/
theorem names_link {n : Node} (h : (w.link loc n).root.Names k ino content) :
    w.root.Names k ino content ∨ (∃ a es, w.root.get loc.dropLast = some (.dir a es)) ∧
      ∃ r, k = loc ++ r ∧ n.Names r ino content := by
  rcases List.eq_nil_or_concat' loc with rfl | ⟨p,c,rfl⟩
  · exact .inl h
  rw [link,List.getLast?_concat,List.dropLast_concat] at h
  rw [List.dropLast_concat]
  rcases names_setEntries h with ⟨-,h⟩ | ⟨a,es,c',m,r,hdir,rfl,hm,h⟩
  · exact .inl h
  rw [lookup_setEntry] at hm
  split_ifs at hm with hc
  · subst c'
    cases hm
    exact .inr ⟨⟨a,es,hdir⟩,r,by simp,h⟩
  · exact .inl (.of_get hdir (names_dir.mpr ⟨c',m,r,rfl,hm,h⟩))

theorem names_of_unlink (h : (w.unlink loc).root.Names k ino content) :
    w.root.Names k ino content := by
  rcases List.eq_nil_or_concat' loc with rfl | ⟨p,c,rfl⟩
  · exact h
  rw [unlink,List.getLast?_concat,List.dropLast_concat] at h
  rcases names_setEntries h with ⟨-,h⟩ | ⟨a,es,c',m,r,hdir,rfl,hm,h⟩
  · exact h
  · rw [lookup_eraseEntry] at hm
    split_ifs at hm
    exact .of_get hdir (names_dir.mpr ⟨c',m,r,rfl,hm,h⟩)

/-- A name that is removed goes with all the names below it. -/
theorem names_unlink {n : Node} (hget : w.root.get loc = some n) (hloc : loc ≠ [])
    (h : (w.unlink loc).root.Names k ino content) : ¬loc <+: k := by
  rcases List.eq_nil_or_concat' loc with rfl | ⟨p,c,rfl⟩
  · exact absurd rfl hloc
  rw [unlink,List.getLast?_concat,List.dropLast_concat] at h
  obtain ⟨d,hd,hc⟩ := Option.bind_eq_some_iff.mp ((Node.get_append w.root p [c]).symm.trans hget)
  rcases names_setEntries h with ⟨hk,-⟩ | ⟨a,es,c',m,r,hdir,rfl,hm,-⟩
  · intro hle
    cases d with
    | dir a es => exact hk a es hd ((List.prefix_append p [c]).trans hle)
    | file | symlink | special => cases hc
  · rw [lookup_eraseEntry] at hm
    split_ifs at hm with hne
    intro hle
    obtain ⟨hcc,-⟩ := List.cons_prefix_cons.mp ((List.prefix_append_right_inj p).mp hle)
    exact hne hcc.symm

theorem stores_link {n : Node} (h : (w.link loc n).root.Stores ino content) :
    w.root.Stores ino content ∨ n.Stores ino content := by
  obtain ⟨k,h⟩ := h
  rcases names_link h with h | ⟨-,r,-,h⟩
  · exact .inl ⟨k,h⟩
  · exact .inr ⟨r,h⟩

theorem stores_unlink (h : (w.unlink loc).root.Stores ino content) : w.root.Stores ino content := by
  obtain ⟨k,h⟩ := h
  exact ⟨k,names_of_unlink h⟩

theorem names_update_chmod {mode : Mode} {now : ℤ}
    (h : (w.update loc (Node.chmod mode now)).root.Names k ino content) :
    w.root.Names k ino content := by
  rcases names_modify h with ⟨-,h⟩ | ⟨r,n,rfl,hn,h⟩
  · exact h
  · exact .of_get hn (names_chmod h)

/-- A name that leads to nothing that has a name already gives no file a second one. -/
theorem single_link {n : Node} (hs : w.root.Single ino) (hn : n.Single ino)
    (hapart : (∃ a es, w.root.get loc.dropLast = some (.dir a es)) →
      ∀ k r content content', w.root.Names k ino content → ¬n.Names r ino content') :
    (w.link loc n).root.Single ino := by
  intro k k' c c' hk hk'
  rcases names_link hk with hk | ⟨hdir,r,rfl,hr⟩ <;>
    rcases names_link hk' with hk' | ⟨hdir',r',rfl,hr'⟩
  · exact hs k k' c c' hk hk'
  · exact absurd hr' (hapart hdir' k r' c c' hk)
  · exact absurd hr (hapart hdir k' r c' c hk')
  · rw [hn r r' c c' hr hr']

theorem single_unlink (hs : w.root.Single ino) : (w.unlink loc).root.Single ino :=
  fun k k' c c' hk hk' => hs k k' c c' (names_of_unlink hk) (names_of_unlink hk')

/-- What is taken away has one name afterwards, if it is not put into itself. -/
theorem single_rename {old new : Loc} {n : Node} (hs : w.root.Single ino)
    (hget : w.root.get old = some n) (hloop : n.isDir = true → ¬old <+: new) :
    ((w.unlink old).link new n).root.Single ino := by
  refine single_link (single_unlink hs) ?_ fun hdir k r c c' hk hr => ?_
  · intro k k' c c' hk hk'
    exact List.append_cancel_left (hs _ _ c c' (.of_get hget hk) (.of_get hget hk'))
  by_cases hold : old = []
  · -- then there is no directory at all
    subst old
    obtain ⟨a,es,hdir⟩ := hdir
    have hn : n.isDir = false := by
      cases hn : n.isDir with
      | false => rfl
      | true => exact absurd List.nil_prefix (hloop hn)
    change w.root.get new.dropLast = _ at hdir
    rw [show w.root = n from Option.some.inj hget] at hdir
    cases hp : new.dropLast with
    | nil =>
      rw [hp] at hdir
      cases hdir
      cases hn
    | cons c loc =>
      rw [hp,Node.get_cons] at hdir
      cases n with
      | dir => cases hn
      | file | symlink | special => cases hdir
  · have hsame : k = old ++ r := hs k (old ++ r) c c' (names_of_unlink hk) (.of_get hget hr)
    exact names_unlink hget hold hk (hsame ▸ List.prefix_append old r)

/-- What `append` makes of a file. -/
def appended (bytes : Bytes) (now : ℤ) : Node → Node
  | .file a content => .file {a with mtimeNs := now, ctimeNs := now} (content ++ bytes)
  | n => n

theorem names_appended {bytes : Bytes} {now : ℤ} (n : Node) (r : Loc) (content : Bytes)
    (h : (appended bytes now n).Names r ino content) : ∃ content', n.Names r ino content' := by
  cases n with
  | file a old =>
    obtain ⟨hr,hino,-⟩ := names_file.mp h
    exact ⟨old,names_file.mpr ⟨hr,hino,rfl⟩⟩
  | dir | symlink | special => exact ⟨content,h⟩

end World

/-- What one call does to the tree of `w`. The process writes to the files in `made` only, and what
it creates is added to them. -/
inductive Alters (made : Set ℕ) (w : World) : Set ℕ → Node → Prop
  | rest : Alters made w made w.root
  | create {loc : Loc} {mode : Mode} (hnone : w.root.get loc = none) :
      Alters made w (insert (w.env.ino w.calls) made) (w.link loc (.file (w.newAttr mode) [])).root
  | mkdir {loc : Loc} {mode : Mode} (hnone : w.root.get loc = none) :
      Alters made w made (w.link loc (.dir (w.newAttr mode) [])).root
  | append {loc : Loc} {a : Attr} {content bytes : Bytes}
      (hget : w.root.get loc = some (.file a content)) (hmade : a.ino ∈ made) :
      Alters made w made (w.update loc (World.appended bytes (w.env.now w.calls))).root
  | unlink {loc : Loc} {n : Node} (hget : w.root.get loc = some n) (hn : n.isDir = false) :
      Alters made w made (w.unlink loc).root
  | rename {old new : Loc} {n : Node} (hget : w.root.get old = some n)
      (hloop : n.isDir = true → ¬old <+: new) :
      Alters made w made ((w.unlink old).link new n).root
  | rmdir {loc : Loc} {a : Attr} (hget : w.root.get loc = some (.dir a [])) :
      Alters made w made (w.unlink loc).root
  | chmod {loc : Loc} {mode : Mode} :
      Alters made w made (w.update loc (Node.chmod mode (w.env.now w.calls))).root

namespace Alters
variable {made made' A : Set ℕ} {w : World} {t : Node} {ino : ℕ} {content : Bytes}

/-- What is created gets the number of the call. -/
theorem mem_made (h : Alters made w made' t) (hino : ino ∈ made') :
    ino ∈ made ∨ ino = w.env.ino w.calls := by
  cases h with
  | create => exact (Set.mem_insert_iff.mp hino).symm
  | rest | mkdir | append | unlink | rename | rmdir | chmod => exact .inl hino

/-- A file that the process has not made keeps its content as long as it has a name. -/
theorem stores (h : Alters made w made' t) (hino : ino ∉ made') (hs : t.Stores ino content) :
    w.root.Stores ino content := by
  cases h with
  | rest => exact hs
  | create =>
    refine (World.stores_link hs).elim id fun hnew => ?_
    exact absurd (.inl (stores_file.mp hnew).1.symm) hino
  | mkdir =>
    refine (World.stores_link hs).elim id fun hnew => ?_
    obtain ⟨c,n,hn,-⟩ := stores_dir.mp hnew
    cases hn
  | append hget hmade =>
    refine (stores_modify hs).elim id fun ⟨n,hn,hnew⟩ => ?_
    cases hget.symm.trans hn
    obtain ⟨ha,-⟩ := stores_file.mp hnew
    exact absurd (ha ▸ hmade) hino
  | unlink | rmdir => exact World.stores_unlink hs
  | rename hget =>
    refine (World.stores_link hs).elim World.stores_unlink fun hnew => ?_
    exact .of_get hget hnew
  | chmod =>
    obtain ⟨k,hs⟩ := hs
    exact ⟨k,World.names_update_chmod hs⟩

/-- No call gives a second name to a file. -/
theorem single (h : Alters made w made' t) (hs : w.root.Single ino)
    (hfresh : ∀ content, ¬w.root.Stores (w.env.ino w.calls) content) : t.Single ino := by
  cases h with
  | rest => exact hs
  | create =>
    refine World.single_link hs ?_ fun _ k r c c' hk hr => ?_
    · intro k k' c c' hk hk'
      rw [(names_file.mp hk).1,(names_file.mp hk').1]
    · obtain ⟨-,rfl,-⟩ := names_file.mp hr
      exact hfresh c ⟨k,hk⟩
  | @mkdir loc mode =>
    have hempty (r : Loc) (c : Bytes) : ¬(Node.dir (w.newAttr mode) []).Names r ino c := by
      intro h
      obtain ⟨d,n,r',-,hd,-⟩ := names_dir.mp h
      cases hd
    exact World.single_link hs (fun k _ c _ hk => absurd hk (hempty k c))
      fun _ _ r _ c _ hr => hempty r c hr
  | append =>
    intro k k' c c' hk hk'
    obtain ⟨d,hk⟩ := names_modify_kept World.names_appended hk
    obtain ⟨d',hk'⟩ := names_modify_kept World.names_appended hk'
    exact hs k k' d d' hk hk'
  | unlink | rmdir => exact World.single_unlink hs
  | rename hget hloop => exact World.single_rename hs hget hloop
  | chmod =>
    exact fun k k' c c' hk hk' =>
      hs k k' c c' (World.names_update_chmod hk) (World.names_update_chmod hk')

/-- Whoever may write to more files may still do so. -/
theorem union (h : Alters made w made' t) (A : Set ℕ) : Alters (made ∪ A) w (made' ∪ A) t := by
  cases h with
  | rest => exact .rest
  | create hnone =>
    rw [Set.insert_union]
    exact .create hnone
  | mkdir hnone => exact .mkdir hnone
  | append hget hmade => exact .append hget (.inl hmade)
  | unlink hget hn => exact .unlink hget hn
  | rename hget hloop => exact .rename hget hloop
  | rmdir hget => exact .rmdir hget
  | chmod => exact .chmod

end Alters

/-- The calls that lead from `w` to `v`, with the files that were made before and after. -/
inductive Calls (made : Set ℕ) (w : World) : Set ℕ → World → Prop
  | refl : Calls made w made w
  | step {made' made'' : Set ℕ} {v u : World} (h : Calls made w made' v) (hlater : v.Later u)
      (hcounted : made'' = made' ∨ v.calls < u.calls) (halters : Alters made' v made'' u.root) :
      Calls made w made'' u

namespace Calls
variable {made made' made'' A : Set ℕ} {w v u : World}

theorem trans (h : Calls made w made' v) (h' : Calls made' v made'' u) : Calls made w made'' u := by
  induction h' with
  | refl => exact h
  | step _ hlater hcounted halters ih => exact ih.step hlater hcounted halters

theorem union (h : Calls made w made' v) (A : Set ℕ) : Calls (made ∪ A) w (made' ∪ A) v := by
  induction h with
  | refl => exact .refl
  | step _ hlater hcounted halters ih =>
    refine ih.step hlater (hcounted.imp_left fun hsame => ?_) (halters.union A)
    rw [hsame]

theorem later (h : Calls made w made' v) : w.Later v := by
  induction h with
  | refl => exact Std.Refl.refl w
  | step _ hlater _ _ ih => exact ih.trans hlater

theorem rest (hlater : w.Later v) (hroot : v.root = w.root) : Calls made w made v :=
  .step .refl hlater (.inl rfl) (hroot ▸ .rest)

end Calls

/-- New files get numbers that nothing else has, and those that were made have one name at most. -/
structure World.Numbered (made : Set ℕ) (w : World) : Prop where
  single : ∀ ino ∈ made, w.root.Single ino
  unique : ∀ ino content content', w.root.Stores ino content → w.root.Stores ino content' →
    content = content'
  fresh : ∀ n ≥ w.calls, w.env.ino n ∉ made ∧ ∀ content, ¬w.root.Stores (w.env.ino n) content
  distinct : ∀ n ≥ w.calls, ∀ m ≥ w.calls, w.env.ino n = w.env.ino m → n = m

/-- What was made before is as if it had been there. -/
theorem World.Numbered.forget {made : Set ℕ} {w : World} (h : w.Numbered made) : w.Numbered ∅ where
  single _ hino := absurd hino (Set.notMem_empty _)
  unique := h.unique
  fresh n hn := ⟨Set.notMem_empty _,(h.fresh n hn).2⟩
  distinct := h.distinct

/-- A call keeps the numbers apart. -/
theorem World.Numbered.step {made made' : Set ℕ} {w v : World} (h : w.Numbered made)
    (hlater : w.Later v) (hcounted : made' = made ∨ w.calls < v.calls)
    (halters : Alters made w made' v.root) : v.Numbered made' := by
  have hnow := h.fresh w.calls le_rfl
  have hsingle (ino : ℕ) (hino : ino ∈ made') : v.root.Single ino := by
    refine halters.single ?_ hnow.2
    rcases halters.mem_made hino with hold | rfl
    · exact h.single ino hold
    · exact fun k _ c _ hk => absurd ⟨k,hk⟩ (hnow.2 c)
  have hfresh (n : ℕ) (hn : n ≥ v.calls) : w.env.ino n ∉ made' := by
    have hold := (h.fresh n (hlater.calls.trans hn)).1
    rcases hcounted with rfl | hlt
    · exact hold
    intro hmem
    rcases halters.mem_made hmem with hmem | heq
    · exact hold hmem
    · have hsame := h.distinct n (hlater.calls.trans hn) w.calls le_rfl heq
      omega
  refine ⟨hsingle,fun ino c c' hs hs' => ?_,fun n hn => ?_,fun n hn m hm heq => ?_⟩
  · by_cases hino : ino ∈ made'
    · obtain ⟨k,a,hget,ha⟩ := hs
      obtain ⟨k',a',hget',ha'⟩ := hs'
      cases hsingle ino hino k k' c c' ⟨a,hget,ha⟩ ⟨a',hget',ha'⟩
      cases hget.symm.trans hget'
      rfl
    · exact h.unique ino c c' (halters.stores hino hs) (halters.stores hino hs')
  · rw [hlater.env]
    refine ⟨hfresh n hn,fun c hs => ?_⟩
    exact (h.fresh n (hlater.calls.trans hn)).2 c (halters.stores (hfresh n hn) hs)
  · rw [hlater.env] at heq
    exact h.distinct n (hlater.calls.trans hn) m (hlater.calls.trans hm) heq

/-- The process that makes these calls writes to no files but those that it creates. -/
def World.Reaches (w v : World) : Prop := ∃ made, Calls ∅ w made v

namespace World
variable {w v u : World}

theorem Reaches.refl (w : World) : w.Reaches w := ⟨∅,.refl⟩

theorem Reaches.after {made : Set ℕ} (h : Calls ∅ w made v) (h' : v.Reaches u) : w.Reaches u := by
  obtain ⟨made',hcalls⟩ := h'
  refine ⟨made' ∪ made,h.trans ?_⟩
  have hunion := hcalls.union made
  rwa [Set.empty_union] at hunion

instance : Std.Refl Reaches := ⟨Reaches.refl⟩

instance : IsTrans World Reaches := ⟨fun _ _ _ ⟨_,h⟩ h' => Reaches.after h h'⟩

theorem reaches_rest (hlater : w.Later v) (hroot : v.root = w.root) : w.Reaches v :=
  ⟨∅,.rest hlater hroot⟩

theorem reaches_tick (w : World) : w.Reaches w.tick := reaches_rest (later_tick w) rfl

end World
end Posix
