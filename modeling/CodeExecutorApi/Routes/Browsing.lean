import CodeExecutorApi.Executor.Addressing
import CodeExecutorApi.Python.AbsolutePath
import CodeExecutorApi.Routes.Answers

/-! What a client can find out by GETs alone, who lists the session and goes on by the names it
finds in each listing. -/
namespace CodeExecutorApi
open Python Posix Machine

/-- The path of an entry of a listing. -/
def child (path name : Str) : Str := if path = [] then name else path ++ slash :: name

/-- A chain of GETs, with the last path, its answer and the world after it: the session itself, and
then each time an entry of the listing before. -/
inductive Browses (w : World) : Str → Reply → World → Prop
  | root {q} (empty : strip q = []) : Browses w q
      (serve (handleGetFile Session.rootDirectory q) w).1
      (serve (handleGetFile Session.rootDirectory q) w).2
  | into {q listing v e} (browsed : Browses w q (.listing listing) v) (listed : e ∈ listing.entries) :
      Browses w (child listing.path e.name)
        (serve (handleGetFile Session.rootDirectory (child listing.path e.name)) v).1
        (serve (handleGetFile Session.rootDirectory (child listing.path e.name)) v).2

/-- The answer about the entry at a place. -/
def answerAt (refuses : Str → Bool) (loc : Loc) (n : Node) : Reply :=
  if unreadable refuses (subPathOf loc) n then .internalServerError
  else shown (subPathOf loc) (some n)

section
variable {w v : World} {q : Str} {reply : Reply} {loc : Loc} {c : Name} {n : Node}

theorem subPathOf_concat (loc : Loc) (c : Name) :
    subPathOf (loc ++ [c]) = child (subPathOf loc) (fsdecode c.bytes) := by
  by_cases hne : loc = []
  · subst hne
    simp [subPathOf,join,child]
  · have hpath : subPathOf loc ≠ [] := normalizeSubPath_ne_nil (normalizeSubPath_subPathOf hne)
    rw [child,if_neg hpath,subPathOf,List.map_append,join_append (by simpa using hne) (by simp)]
    simp [subPathOf,join]

theorem place_namesOf (h : Short loc) : place (namesOf loc) = some loc := by
  induction loc with
  | nil => rfl
  | cons c loc ih =>
    have hc := nameOf_fsdecode c (h c List.mem_cons_self)
    have hloc := ih fun d hd => h d (List.mem_cons_of_mem _ hd)
    change ((nameOf (fsdecode c.bytes)).bind fun c => (place (namesOf loc)).map fun p => c :: p) = _
    rw [hc,hloc]
    rfl

/-- The path of an entry finds it. -/
theorem find_subPathOf {t : Node} (hshort : Short (loc ++ [c])) (hget : t.get (loc ++ [c]) = some n) :
    find t (subPathOf (loc ++ [c])) = .ok n := by
  obtain ⟨a,es,hdir,-⟩ := Node.get_parent hget
  have hplace : place (namesOf loc) = some loc :=
    place_namesOf fun d hd => hshort d (List.mem_append_left _ hd)
  have hfrom : dirFrom t [] (namesOf loc) = .ok loc := dirFrom_of_place hplace hdir
  have hname := nameOf_fsdecode c (hshort c (by simp))
  unfold find
  rw [dropLast_split_subPathOf,hfrom,lastPart_subPathOf,hname]
  simp only [hget]

theorem answer_subPathOf (ht : Traversable w.root) (hne : loc ≠ [])
    (hget : w.root.get loc = some n) :
    answer w.env.refuses w.root (subPathOf loc) = answerAt w.env.refuses loc n := by
  obtain ⟨k,c,rfl⟩ := (List.eq_nil_or_concat' loc).resolve_left hne
  rw [Session.answer_path (normalizeSubPath_subPathOf hne),find_subPathOf (ht.short_of_get hget) hget]
  rfl

theorem mem_listingOf {p : Str} {es : List (Name × Node)} {e : Session.Entry} :
    e ∈ (listingOf p es).entries ↔ ∃ d ∈ es, entry d = e := by
  rw [listingOf,List.mem_mergeSort,List.mem_map]

/-- An answer that is a listing is that of a directory. -/
theorem answerAt_listing {refuses : Str → Bool} {listing : Session.Listing}
    (h : answerAt refuses loc n = .listing listing) :
    ∃ a es, n = .dir a es ∧ listing = listingOf (subPathOf loc) es := by
  unfold answerAt at h
  split_ifs at h
  cases n with
  | dir a es =>
    cases h
    exact ⟨a,es,rfl,rfl⟩
  | file | symlink | special => cases h

/-- The path at the end of a chain of GETs. -/
def Names (q : Str) (loc : Loc) : Prop := loc = [] ∧ strip q = [] ∨ loc ≠ [] ∧ q = subPathOf loc

/-- Every GET of a chain is answered by what the session has at the place it has come to. -/
theorem Browses.sound (henv : w.env.Reliable) (ht : Traversable w.root) (h : Browses w q reply v) :
    v.root = w.root ∧ v.env = w.env ∧
      ∃ loc n, w.root.get loc = some n ∧ Names q loc ∧ reply = answerAt w.env.refuses loc n := by
  induction h with
  | @root q empty =>
    obtain ⟨hreply,hroot,henv'⟩ := Session.serve_get henv ht
    refine ⟨hroot,henv',[],w.root,rfl,.inl ⟨rfl,empty⟩,?_⟩
    rw [hreply,Session.answer_root empty]
    obtain ⟨a,es,hdir⟩ := Node.eq_dir ht.root
    rw [hdir]
    rfl
  | @into q listing v e browsed listed ih =>
    obtain ⟨hvroot,hvenv,loc,n,hget,-,hlisting⟩ := ih
    obtain ⟨a,es,rfl,rfl⟩ := answerAt_listing hlisting.symm
    obtain ⟨⟨c,m⟩,hmem,rfl⟩ := mem_listingOf.mp listed
    have hchild : w.root.get (loc ++ [c]) = some m := by
      rw [Node.get_entry hget]
      exact lookup_of_mem (ht.nodup loc a es hget) hmem
    have hpath : child (listingOf (subPathOf loc) es).path (entry (c,m)).name =
        subPathOf (loc ++ [c]) := (subPathOf_concat loc c).symm
    obtain ⟨hreply,hroot,henv'⟩ := Session.serve_get (w := v)
      (q := child (listingOf (subPathOf loc) es).path (entry (c,m)).name)
      (hvenv ▸ henv) (hvroot ▸ ht)
    refine ⟨hroot.trans hvroot,henv'.trans hvenv,loc ++ [c],m,hchild,.inr ⟨by simp,hpath⟩,?_⟩
    rw [hreply,hpath,← hvenv]
    exact answer_subPathOf (hvroot ▸ ht) (by simp) (hvroot ▸ hchild)

end

end CodeExecutorApi
