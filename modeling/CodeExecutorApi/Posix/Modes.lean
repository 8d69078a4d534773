import CodeExecutorApi.Posix.Listing

/-! Trees that differ in the attributes of directories only, as after `chmod`. -/
namespace Posix

/-- `chmod` of an entry. -/
def Node.chmod (mode : Mode) (now : ℤ) : Node → Node
  | .file a content => .file {a with mode := mode, ctimeNs := now} content
  | .dir a es => .dir {a with mode := mode, ctimeNs := now} es
  | .symlink a target => .symlink {a with mode := mode, ctimeNs := now} target
  | .special a kind => .special {a with mode := mode, ctimeNs := now} kind

/-- How a place lies to another one: below it, at it, above it, or apart from it. -/
theorem place_cases (d loc : Loc) : (∃ c r, loc = d ++ c :: r) ∨ loc = d ∨
    (∃ c r, d = loc ++ c :: r) ∨ (¬d <+: loc ∧ ¬loc <+: d) := by
  by_cases h : d <+: loc
  · obtain ⟨r,rfl⟩ := h
    cases r with
    | nil => exact .inr (.inl (List.append_nil d))
    | cons c r => exact .inl ⟨c,r,rfl⟩
  · by_cases h' : loc <+: d
    · obtain ⟨r,rfl⟩ := h'
      cases r with
      | nil => exact absurd (by simp) h
      | cons c r => exact .inr (.inr (.inl ⟨c,r,rfl⟩))
    · exact .inr (.inr (.inr ⟨h,h'⟩))

theorem ne_append_cons (loc : Loc) (c : Name) (r : Loc) : loc ≠ loc ++ c :: r := fun h => by
  have := congrArg List.length h
  simp at this

/-- A directory above a rewritten entry keeps its attributes and its names. -/
theorem Node.get_modify_dir_above {t n : Node} {loc r : Loc} {c : Name} {b : Attr}
    {bs : List (Name × Node)} (f : Node → Node) (hget : t.get loc = some (.dir b bs))
    (hd : t.get (loc ++ c :: r) = some n) : ∃ bs',
      (t.modify f (loc ++ c :: r)).get loc = some (.dir b bs') ∧
        bs'.map Prod.fst = bs.map Prod.fst := by
  have hget' : (t.modify f (loc ++ c :: r)).get loc = some ((Node.dir b bs).modify f (c :: r)) := by
    rw [Node.get_modify_above,hget]
    rfl
  have hchild : ∃ m, (Node.dir b bs).child c = some m := by
    rw [Node.get_append,hget,Option.bind_some,Node.get_cons,Option.bind_eq_some_iff] at hd
    exact hd.imp fun _ h => h.1
  obtain ⟨m,hm⟩ := hchild
  have hnames := Node.names_modify_cons (.dir b bs) f c r
  rw [Node.modify_cons_of_child _ r hm] at hget' hnames
  exact ⟨_,hget',hnames⟩

/-- The tree `t'` is `t` with other attributes of directories, as `R` allows. -/
structure Remoded (R : Loc → Attr → Attr → Prop) (t t' : Node) : Prop where
  none : ∀ loc, t.get loc = none → t'.get loc = none
  leaf : ∀ loc n, t.get loc = some n → n.isDir = false → t'.get loc = some n
  dir : ∀ loc a es, t.get loc = some (.dir a es) →
    ∃ a' es', t'.get loc = some (.dir a' es') ∧ es'.map Prod.fst = es.map Prod.fst ∧ R loc a a'

namespace Remoded
variable {R Q : Loc → Attr → Attr → Prop} {t t' t'' : Node} {loc d : Loc}

theorem refl (h : ∀ loc a, R loc a a) (t : Node) : Remoded R t t :=
  ⟨fun _ h => h,fun _ _ h _ => h,fun loc a es hget => ⟨a,es,hget,rfl,h loc a⟩⟩

theorem mono (h : Remoded R t t') (hR : ∀ loc a a', R loc a a' → Q loc a a') : Remoded Q t t' := by
  refine ⟨h.none,h.leaf,fun loc a es hget => ?_⟩
  obtain ⟨a',es',hget',hes,ha⟩ := h.dir loc a es hget
  exact ⟨a',es',hget',hes,hR loc a a' ha⟩

theorem trans (hR : ∀ loc a b c, R loc a b → R loc b c → R loc a c) (h : Remoded R t t')
    (h' : Remoded R t' t'') : Remoded R t t'' := by
  refine ⟨fun loc hget => h'.none loc (h.none loc hget),fun loc n hget hn => ?_,
    fun loc a es hget => ?_⟩
  · exact h'.leaf loc n (h.leaf loc n hget hn) hn
  · obtain ⟨b,bs,hget',hbs,hb⟩ := h.dir loc a es hget
    obtain ⟨c,cs,hget'',hcs,hc⟩ := h'.dir loc b bs hget'
    exact ⟨c,cs,hget'',hcs.trans hbs,hR loc a b c hb hc⟩

/-- What there is afterwards was there before. -/
theorem dir_before (h : Remoded R t t') {a' : Attr} {es' : List (Name × Node)}
    (hget : t'.get loc = some (.dir a' es')) :
    ∃ a es, t.get loc = some (.dir a es) ∧ es'.map Prod.fst = es.map Prod.fst ∧ R loc a a' := by
  cases hn : t.get loc with
  | none =>
    rw [h.none loc hn] at hget
    cases hget
  | some n =>
    cases n with
    | dir a es =>
      obtain ⟨b,bs,hget',hbs,hb⟩ := h.dir loc a es hn
      cases hget.symm.trans hget'
      exact ⟨a,es,rfl,hbs,hb⟩
    | file | symlink | special =>
      rw [h.leaf loc _ hn rfl] at hget
      cases hget

theorem leaf_iff (h : Remoded R t t') {n : Node} (hn : n.isDir = false) :
    t'.get loc = some n ↔ t.get loc = some n := by
  refine ⟨fun hget => ?_,fun hget => h.leaf loc n hget hn⟩
  cases hm : t.get loc with
  | none =>
    rw [h.none loc hm] at hget
    cases hget
  | some m =>
    cases m with
    | dir a es =>
      obtain ⟨b,bs,hget',-,-⟩ := h.dir loc a es hm
      cases hget.symm.trans hget'
      cases hn
    | file | symlink | special =>
      rw [h.leaf loc _ hm rfl] at hget
      exact hget

theorem stored (h : Remoded R t t') (ht : Stored t) : Stored t' := by
  refine ⟨?_,fun loc a es hget => ?_,fun loc a es hget e he => ?_⟩
  · cases t with
    | dir a es =>
      obtain ⟨b,bs,hget,-,-⟩ := h.dir [] a es rfl
      cases hget
      rfl
    | file | symlink | special => cases ht.root
  · obtain ⟨b,bs,hget',hes,-⟩ := h.dir_before hget
    rw [hes]
    exact ht.nodup loc b bs hget'
  · obtain ⟨b,bs,hget',hes,-⟩ := h.dir_before hget
    have hmem : e.1 ∈ bs.map Prod.fst := by
      rw [← hes]
      exact List.mem_map_of_mem he
    obtain ⟨e',he',heq⟩ := List.mem_map.mp hmem
    rw [← heq]
    exact ht.short loc b bs hget' e' he'

/-- `chmod` of one directory. -/
theorem chmod {a : Attr} {es : List (Name × Node)} (mode : Mode) (now : ℤ)
    (hd : t.get d = some (.dir a es)) :
    Remoded (fun loc b b' => (loc ≠ d → b' = b) ∧ (loc = d → b'.mode = mode)) t
      (t.modify (Node.chmod mode now) d) := by
  have hself (r : Loc) : (t.modify (Node.chmod mode now) d).get (d ++ r) =
      (Node.dir {a with mode := mode, ctimeNs := now} es).get r := by
    rw [Node.get_modify_append,hd]
    rfl
  have hbelow (c : Name) (r : Loc) : (t.modify (Node.chmod mode now) d).get (d ++ c :: r) =
      t.get (d ++ c :: r) := by
    rw [hself,Node.get_append,hd]
    rfl
  refine ⟨fun loc hget => ?_,fun loc n hget hn => ?_,fun loc b bs hget => ?_⟩
  · rcases place_cases d loc with ⟨c,r,rfl⟩ | rfl | ⟨c,r,rfl⟩ | ⟨h,h'⟩
    · rw [hbelow,hget]
    · cases hd.symm.trans hget
    · rw [Node.get_modify_above,hget]
      rfl
    · rw [Node.get_modify_of_apart _ _ h h',hget]
  · rcases place_cases d loc with ⟨c,r,rfl⟩ | rfl | ⟨c,r,rfl⟩ | ⟨h,h'⟩
    · rw [hbelow,hget]
    · cases hd.symm.trans hget
      cases hn
    · rw [Node.get_append,hget] at hd
      cases n with
      | dir => cases hn
      | file | symlink | special => cases hd
    · rw [Node.get_modify_of_apart _ _ h h',hget]
  · rcases place_cases d loc with ⟨c,r,rfl⟩ | rfl | ⟨c,r,rfl⟩ | ⟨h,h'⟩
    · refine ⟨b,bs,by rw [hbelow,hget],rfl,fun _ => rfl,fun heq => ?_⟩
      exact absurd heq.symm (ne_append_cons d c r)
    · cases hd.symm.trans hget
      have hget' := hself []
      rw [List.append_nil] at hget'
      exact ⟨_,es,hget',rfl,fun h => absurd rfl h,fun _ => rfl⟩
    · obtain ⟨bs',hget',hnames⟩ := Node.get_modify_dir_above (Node.chmod mode now) hget hd
      exact ⟨b,bs',hget',hnames,fun _ => rfl,fun h => absurd h (ne_append_cons loc c r)⟩
    · refine ⟨b,bs,by rw [Node.get_modify_of_apart _ _ h h',hget],rfl,fun _ => rfl,?_⟩
      rintro rfl
      exact absurd List.prefix_rfl h

end Remoded
end Posix
