import CodeExecutorApi.Posix.Kernel

/-! How a tree changes when one entry of a directory does, and when missing directories are made
on the way to a place. -/
namespace Posix

/-- Two directories hold the same but for the entry `c`. -/
structure SameBut (c : Name) (es es' : List (Name × Node)) : Prop where
  mem : ∀ e, e.1 ≠ c → (e ∈ es' ↔ e ∈ es)
  lookup : ∀ k, k ≠ c → es'.lookup k = es.lookup k
  nodup : (es.map Prod.fst).Nodup → (es'.map Prod.fst).Nodup

/-- A directory with the mode and the entries of another one, as far as the names in `off` go. -/
structure DirKept (off : Name → Prop) (mode : Mode) (es : List (Name × Node)) (mode' : Mode)
    (es' : List (Name × Node)) : Prop where
  mode : mode' = mode
  mem : ∀ e, off e.1 → (e ∈ es' ↔ e ∈ es)
  nodup : (es.map Prod.fst).Nodup → (es'.map Prod.fst).Nodup

theorem DirKept.refl (off : Name → Prop) (mode : Mode) (es : List (Name × Node)) :
    DirKept off mode es mode es := ⟨rfl,fun _ _ => Iff.rfl,fun h => h⟩

theorem DirKept.trans {off : Name → Prop} {mode mode' mode'' : Mode}
    {es es' es'' : List (Name × Node)} (h : DirKept off mode es mode' es')
    (h' : DirKept off mode' es' mode'' es'') : DirKept off mode es mode'' es'' :=
  ⟨h'.mode.trans h.mode,fun e he => (h'.mem e he).trans (h.mem e he),fun hn => h'.nodup (h.nodup hn)⟩

theorem DirKept.mono {off off' : Name → Prop} {mode mode' : Mode} {es es' : List (Name × Node)}
    (h : DirKept off mode es mode' es') (hoff : ∀ c, off' c → off c) :
    DirKept off' mode es mode' es' := ⟨h.mode,fun e he => h.mem e (hoff e.1 he),h.nodup⟩

theorem SameBut.dirKept {c : Name} {mode mode' : Mode} {es es' : List (Name × Node)}
    (h : SameBut c es es') (hmode : mode' = mode) : DirKept (· ≠ c) mode es mode' es' :=
  ⟨hmode,h.mem,h.nodup⟩

theorem SameBut.refl (c : Name) (es : List (Name × Node)) : SameBut c es es :=
  ⟨fun _ _ => Iff.rfl,fun _ _ => rfl,fun h => h⟩

theorem SameBut.trans {c : Name} {es es' es'' : List (Name × Node)} (h : SameBut c es es')
    (h' : SameBut c es' es'') : SameBut c es es'' :=
  ⟨fun e he => (h'.mem e he).trans (h.mem e he),fun k hk => (h'.lookup k hk).trans (h.lookup k hk),
    fun hn => h'.nodup (h.nodup hn)⟩

theorem mem_names_setEntry {c k : Name} {n : Node} {es : List (Name × Node)}
    (h : k ∈ (setEntry c n es).map Prod.fst) : k = c ∨ k ∈ es.map Prod.fst := by
  induction es with
  | nil =>
    rw [setEntry,List.map_cons,List.mem_cons] at h
    exact h
  | cons e es ih =>
    obtain ⟨a,d⟩ := e
    rw [setEntry] at h
    split_ifs at h with ha
    · rw [List.map_cons,List.mem_cons] at h ⊢
      exact h.imp_right .inr
    · rw [List.map_cons,List.mem_cons] at h ⊢
      rcases h with h | h
      · exact .inr (.inl h)
      · exact (ih h).imp_right .inr

theorem nodup_setEntry {c : Name} {n : Node} {es : List (Name × Node)}
    (h : (es.map Prod.fst).Nodup) : ((setEntry c n es).map Prod.fst).Nodup := by
  induction es with
  | nil => simp [setEntry]
  | cons e es ih =>
    obtain ⟨a,d⟩ := e
    obtain ⟨ha,hn⟩ := List.nodup_cons.mp h
    rw [setEntry]
    split_ifs with hc
    · rw [List.map_cons,List.nodup_cons,← hc]
      exact ⟨ha,hn⟩
    · rw [List.map_cons,List.nodup_cons]
      exact ⟨fun hm => (mem_names_setEntry hm).elim hc ha,ih hn⟩

theorem sameBut_setEntry (c : Name) (n : Node) (es : List (Name × Node)) :
    SameBut c es (setEntry c n es) := by
  refine ⟨fun e he => ?_,fun k hk => by rw [lookup_setEntry,if_neg hk],nodup_setEntry⟩
  induction es with
  | nil =>
    rw [setEntry,List.mem_singleton]
    exact ⟨fun h => absurd (congrArg Prod.fst h) he,fun h => absurd h List.not_mem_nil⟩
  | cons d es ih =>
    obtain ⟨k,m⟩ := d
    rw [setEntry]
    by_cases hk : k = c
    · rw [if_pos hk,List.mem_cons,List.mem_cons]
      constructor
      · rintro (h | h)
        · exact absurd (congrArg Prod.fst h) he
        · exact .inr h
      · rintro (h | h)
        · exact absurd ((congrArg Prod.fst h).trans hk) he
        · exact .inr h
    · rw [if_neg hk,List.mem_cons,List.mem_cons,ih]

theorem sameBut_eraseEntry (c : Name) (es : List (Name × Node)) :
    SameBut c es (eraseEntry c es) := by
  refine ⟨fun e he => ?_,fun k hk => by rw [lookup_eraseEntry,if_neg hk],fun hn => ?_⟩
  · rw [eraseEntry,List.mem_filter]
    exact and_iff_left (by simpa using he)
  · exact hn.sublist (List.filter_sublist.map _)

theorem fst_ne_of_lookup_none {c : Name} {es : List (Name × Node)} (h : es.lookup c = none) :
    ∀ e ∈ es, e.1 ≠ c := by
  intro e he hc
  rw [List.lookup_eq_none_iff] at h
  have := h e he
  rw [hc] at this
  simp at this

/-- Without the entry `c` on either side, nothing at all differs. -/
theorem SameBut.of_none {c : Name} {es es' : List (Name × Node)} (h : SameBut c es es')
    (hes : es.lookup c = none) (hes' : es'.lookup c = none) :
    (∀ e, e ∈ es' ↔ e ∈ es) ∧ ∀ k, es'.lookup k = es.lookup k := by
  refine ⟨fun e => ?_,fun k => ?_⟩
  · by_cases he : e.1 = c
    · exact ⟨fun hm => absurd he (fst_ne_of_lookup_none hes' e hm),
        fun hm => absurd he (fst_ne_of_lookup_none hes e hm)⟩
    · exact h.mem e he
  · by_cases hk : k = c
    · rw [hk,hes,hes']
    · exact h.lookup k hk

/-- The entry `c` of the directory at `loc` became `o`. The directory keeps its mode and all its
other entries. -/
def Relinked (loc : Loc) (c : Name) (o : Option Node) (t t' : Node) : Prop :=
  ∃ a es a' es', t.get loc = some (.dir a es) ∧ t' = t.modify (fun _ => .dir a' es') loc ∧
    a'.mode = a.mode ∧ SameBut c es es' ∧ es'.lookup c = o

theorem Node.modify_eq_of_get {t n : Node} {p : Loc} (f : Node → Node) (h : t.get p = some n) :
    t.modify f p = t.modify (fun _ => f n) p := by
  induction p generalizing t with
  | nil =>
    cases h
    rfl
  | cons name p ih =>
    cases hc : t.child name with
    | none =>
      rw [Node.get_cons,hc] at h
      cases h
    | some c =>
      rw [Node.get_cons,hc] at h
      rw [Node.modify_cons_of_child f p hc,Node.modify_cons_of_child _ p hc,ih h]

/-- An entry is in a directory. -/
theorem Node.get_parent {t n : Node} {loc : Loc} {c : Name} (h : t.get (loc ++ [c]) = some n) :
    ∃ a es, t.get loc = some (.dir a es) ∧ es.lookup c = some n := by
  rw [Node.get_append] at h
  cases hl : t.get loc with
  | none =>
    rw [hl] at h
    cases h
  | some m =>
    rw [hl] at h
    cases m with
    | dir a es =>
      refine ⟨a,es,rfl,?_⟩
      change (es.lookup c).bind (fun c => c.get []) = some n at h
      cases hc : es.lookup c with
      | none =>
        rw [hc] at h
        cases h
      | some m =>
        rw [hc] at h
        exact h
    | file | symlink | special => cases h

theorem Node.get_entry {t : Node} {loc : Loc} {a : Attr} {es : List (Name × Node)}
    (h : t.get loc = some (.dir a es)) (c : Name) : t.get (loc ++ [c]) = es.lookup c := by
  rw [Node.get_append,h]
  change (es.lookup c).bind _ = _
  cases es.lookup c <;> rfl

namespace Relinked
variable {loc : Loc} {c d : Name} {o o' : Option Node} {t t' t'' : Node}

theorem get_loc (h : Relinked loc c o t t') : ∃ a es a' es', t.get loc = some (.dir a es) ∧
    t'.get loc = some (.dir a' es') ∧ a'.mode = a.mode ∧ SameBut c es es' ∧ es'.lookup c = o := by
  obtain ⟨a,es,a',es',hget,rfl,hmode,hsame,hc⟩ := h
  exact ⟨a,es,a',es',hget,by rw [Node.get_modify_self,hget]; rfl,hmode,hsame,hc⟩

theorem refl {a : Attr} {es : List (Name × Node)} (h : t.get loc = some (.dir a es)) (c : Name) :
    Relinked loc c (es.lookup c) t t :=
  ⟨a,es,a,es,h,(Node.modify_const_self h).symm,rfl,.refl c es,rfl⟩

/-- What is found under the changed entry. -/
theorem get_entry (h : Relinked loc c o t t') (r : Loc) :
    t'.get (loc ++ c :: r) = o.bind fun n => n.get r := by
  obtain ⟨a,es,a',es',hget,rfl,hmode,hsame,rfl⟩ := h
  rw [Node.get_modify_append,hget]
  rfl

/-- What is neither under the changed entry nor above its directory is as before. -/
theorem get_beside (h : Relinked loc c o t t') {k : Loc} (hk : ¬loc ++ [c] <+: k)
    (hk' : ¬k <+: loc) : t'.get k = t.get k := by
  obtain ⟨a,es,a',es',hget,rfl,hmode,hsame,hc⟩ := h
  by_cases hloc : loc <+: k
  · obtain ⟨r,rfl⟩ := hloc
    cases r with
    | nil => exact absurd (by simp) hk'
    | cons name r =>
      have hne : name ≠ c := by
        rintro rfl
        exact hk ⟨r,by rw [List.append_assoc]; rfl⟩
      rw [Node.get_modify_append,Node.get_append,hget]
      change (es'.lookup name).bind _ = (es.lookup name).bind _
      rw [hsame.lookup name hne]
  · exact Node.get_modify_of_apart t _ hloc hk'

/-- A directory above keeps its mode and its entries off the way. -/
theorem get_above (h : Relinked loc c o t t') {k : Loc} (hk : k <+: loc) :
    ∃ a es a' es', t.get k = some (.dir a es) ∧ t'.get k = some (.dir a' es') ∧
      DirKept (fun n => ¬k ++ [n] <+: loc ++ [c]) a.mode es a'.mode es' := by
  obtain ⟨r,rfl⟩ := hk
  cases r with
  | nil =>
    rw [List.append_nil] at h
    obtain ⟨a,es,a',es',hget,hget',hmode,hsame,hc⟩ := h.get_loc
    refine ⟨a,es,a',es',hget,hget',(hsame.dirKept hmode).mono fun n hn => ?_⟩
    rintro rfl
    exact hn (by simp)
  | cons name r =>
    obtain ⟨a,es,a',es',hget,rfl,hmode,hsame,hc⟩ := h
    rw [Node.get_modify_above]
    rw [Node.get_append] at hget
    cases hn : t.get k with
    | none =>
      rw [hn] at hget
      cases hget
    | some n =>
      rw [hn] at hget
      change n.get (name :: r) = _ at hget
      cases hchild : n.child name with
      | none =>
        rw [Node.get_cons,hchild] at hget
        cases hget
      | some m =>
        cases n with
        | dir b bs =>
          have hset := (sameBut_setEntry name (m.modify (fun _ => .dir a' es') r) bs).dirKept
            (rfl : b.mode = b.mode)
          refine ⟨b,bs,b,_,rfl,?_,hset.mono fun n hn => ?_⟩
          · exact congrArg some (Node.modify_cons_of_child _ r hchild)
          · rintro rfl
            exact hn ⟨r ++ [c],by simp⟩
        | file | symlink | special => cases hchild

/-- An entry that was and is no directory has nothing below it. -/
theorem get_off (h : Relinked loc c o t t') (hold : ∀ n, t.get (loc ++ [c]) = some n → n.isDir = false)
    (hnew : ∀ n, o = some n → n.isDir = false) {k : Loc} (hk : k ≠ loc ++ [c]) (hloc : ¬k <+: loc) :
    t'.get k = t.get k := by
  have hbelow (o : Option Node) (ho : ∀ n, o = some n → n.isDir = false) (name : Name) (q : Loc) :
      (o.bind fun n => n.get (name :: q)) = none := by
    cases o with
    | none => rfl
    | some n =>
      have hn := ho n rfl
      cases n with
      | dir => cases hn
      | file | symlink | special => rfl
  by_cases hunder : loc ++ [c] <+: k
  · obtain ⟨q,rfl⟩ := hunder
    cases q with
    | nil => exact absurd (List.append_nil _) hk
    | cons name q =>
      rw [Node.get_append t,hbelow _ hold,List.append_assoc,List.singleton_append,h.get_entry,
        hbelow o hnew]
  · exact h.get_beside hunder hloc

theorem comp (h : Relinked loc c o t t') (h' : Relinked loc c o' t' t'') :
    Relinked loc c o' t t'' := by
  obtain ⟨a,es,a',es',hget,ht,hmode,hsame,hc⟩ := h
  obtain ⟨b,bs,b',bs',hget',rfl,hmode',hsame',hc'⟩ := h'
  have hloc : t'.get loc = some (.dir a' es') := by
    rw [ht,Node.get_modify_self,hget]
    rfl
  rw [hloc] at hget'
  obtain ⟨rfl,rfl⟩ := Node.dir.inj (Option.some.inj hget')
  exact ⟨a,es,b',bs',hget,by rw [ht,Node.modify_modify],hmode'.trans hmode,hsame.trans hsame',hc'⟩

end Relinked

/-- The directory at `loc` was written to, and holds what it held. -/
def Touched (loc : Loc) (t t' : Node) : Prop :=
  ∃ a es a' es', t.get loc = some (.dir a es) ∧ t' = t.modify (fun _ => .dir a' es') loc ∧
    DirKept (fun _ => True) a.mode es a'.mode es' ∧ ∀ k, es'.lookup k = es.lookup k

theorem Touched.refl {loc : Loc} {t : Node} {a : Attr} {es : List (Name × Node)}
    (h : t.get loc = some (.dir a es)) : Touched loc t t :=
  ⟨a,es,a,es,h,(Node.modify_const_self h).symm,.refl _ _ _,fun _ => rfl⟩

/-- An entry that was not there before and is gone again leaves no other trace. -/
theorem Relinked.cancel {loc : Loc} {d : Name} {o : Option Node} {t t' t'' : Node}
    (h : Relinked loc d o t t') (h' : Relinked loc d none t' t'')
    (hnone : t.get (loc ++ [d]) = none) : Touched loc t t'' := by
  obtain ⟨a,es,a',es',hget,ht,hmode,hsame,hd⟩ := h.comp h'
  rw [Node.get_entry hget] at hnone
  obtain ⟨hmem,hlookup⟩ := hsame.of_none hnone hd
  exact ⟨a,es,a',es',hget,ht,⟨hmode,fun e _ => hmem e,hsame.nodup⟩,hlookup⟩

theorem Touched.relinked {loc : Loc} {t t' : Node} (h : Touched loc t t') (c : Name) :
    Relinked loc c (t.get (loc ++ [c])) t t' := by
  obtain ⟨a,es,a',es',hget,ht,hkept,hlookup⟩ := h
  refine ⟨a,es,a',es',hget,ht,hkept.mode,⟨fun e _ => hkept.mem e trivial,fun k _ => hlookup k,
    hkept.nodup⟩,?_⟩
  rw [hlookup,Node.get_entry hget]

/-- What may become of an entry above the place `d` when the directories on the way to it are made:
a directory keeps its mode and its entries off the way, and a missing one may be made. -/
structure Above (mode : Mode) (d k : Loc) (o o' : Option Node) : Prop where
  dir : ∀ a es, o = some (.dir a es) → ∃ a' es', o' = some (.dir a' es') ∧
    DirKept (fun n => ¬k ++ [n] <+: d) a.mode es a'.mode es'
  other : ∀ n, o = some n → n.isDir = false → o' = some n
  missing : o = none → o' = none ∨ ∃ a es, o' = some (.dir a es) ∧
    DirKept (fun n => ¬k ++ [n] <+: d) mode [] a.mode es

theorem Above.refl (mode : Mode) (d k : Loc) (o : Option Node) : Above mode d k o o :=
  ⟨fun a es h => ⟨a,es,h,.refl _ _ _⟩,fun _ h _ => h,.inl⟩

/-- Nothing but missing directories on the way to `d` was added. -/
structure Grown (mode : Mode) (d : Loc) (t t' : Node) : Prop where
  beside : ∀ k, ¬k <+: d → t'.get k = t.get k
  above : ∀ k, k <+: d → Above mode d k (t.get k) (t'.get k)

namespace Grown
variable {mode : Mode} {d loc : Loc} {c : Name} {t t' t'' : Node}

theorem refl (mode : Mode) (d : Loc) (t : Node) : Grown mode d t t :=
  ⟨fun _ _ => rfl,fun _ _ => .refl _ _ _ _⟩

theorem trans (h : Grown mode d t t') (h' : Grown mode d t' t'') : Grown mode d t t'' := by
  refine ⟨fun k hk => (h'.beside k hk).trans (h.beside k hk),fun k hk => ⟨?_,?_,?_⟩⟩
  · intro a es hget
    obtain ⟨a',es',hget',hkept⟩ := (h.above k hk).dir a es hget
    obtain ⟨a'',es'',hget'',hkept'⟩ := (h'.above k hk).dir a' es' hget'
    exact ⟨a'',es'',hget'',hkept.trans hkept'⟩
  · intro n hn hdir
    exact (h'.above k hk).other n ((h.above k hk).other n hn hdir) hdir
  · intro hnone
    rcases (h.above k hk).missing hnone with hnone' | ⟨a,es,hget,hkept⟩
    · exact (h'.above k hk).missing hnone'
    · obtain ⟨a',es',hget',hkept'⟩ := (h'.above k hk).dir a es hget
      exact .inr ⟨a',es',hget',hkept.trans hkept'⟩

/-- The way may be longer. -/
theorem mono {d' : Loc} (h : Grown mode d t t') (hd : d <+: d') : Grown mode d' t t' := by
  refine ⟨fun k hk => h.beside k fun hk' => hk (hk'.trans hd),fun k _ => ?_⟩
  by_cases hk : k <+: d
  · have hoff (n : Name) (hn : ¬k ++ [n] <+: d') : ¬k ++ [n] <+: d := fun hp => hn (hp.trans hd)
    refine ⟨fun a es hget => ?_,(h.above k hk).other,fun hnone => ?_⟩
    · obtain ⟨a',es',hget',hkept⟩ := (h.above k hk).dir a es hget
      exact ⟨a',es',hget',hkept.mono hoff⟩
    · rcases (h.above k hk).missing hnone with hnone' | ⟨a,es,hget,hkept⟩
      · exact .inl hnone'
      · exact .inr ⟨a,es,hget,hkept.mono hoff⟩
  · rw [h.beside k hk]
    exact .refl _ _ _ _

/-- Making one empty directory on the way. -/
theorem of_relinked {a : Attr} (h : Relinked loc c (some (.dir a [])) t t')
    (hnone : t.get (loc ++ [c]) = none) (hmode : a.mode = mode) (hd : loc ++ [c] <+: d) :
    Grown mode d t t' := by
  have hbelow (r : Loc) : t.get (loc ++ c :: r) = none := by
    rw [show loc ++ c :: r = (loc ++ [c]) ++ r by simp,Node.get_append,hnone]
    rfl
  refine ⟨fun k hk => ?_,fun k hk => ?_⟩
  · by_cases hunder : loc ++ [c] <+: k
    · obtain ⟨r,rfl⟩ := hunder
      cases r with
      | nil => exact absurd (by rwa [List.append_nil]) hk
      | cons name r =>
        rw [show loc ++ [c] ++ name :: r = loc ++ c :: (name :: r) by simp,h.get_entry,hbelow]
        rfl
    · refine h.get_beside hunder fun hk' => hk (hk'.trans ?_)
      exact (List.prefix_append loc [c]).trans hd
  · by_cases hloc : k <+: loc
    · obtain ⟨b,bs,b',bs',hget,hget',hkept⟩ := h.get_above hloc
      refine ⟨fun a es ha => ?_,fun n hn hdir => ?_,fun hn => ?_⟩
      · obtain ⟨rfl,rfl⟩ := Node.dir.inj (Option.some.inj (hget.symm.trans ha))
        exact ⟨b',bs',hget',hkept.mono fun n hn hp => hn (hp.trans hd)⟩
      · rw [hget] at hn
        cases hn
        cases hdir
      · rw [hget] at hn
        cases hn
    · -- `k` is the new directory, or further down the way
      by_cases hunder : loc ++ [c] <+: k
      · obtain ⟨r,rfl⟩ := hunder
        have hold : t.get (loc ++ [c] ++ r) = none := by
          rw [List.append_assoc]
          exact hbelow r
        have hnew : t'.get (loc ++ [c] ++ r) = (Node.dir a []).get r := by
          rw [List.append_assoc]
          exact h.get_entry r
        rw [hold,hnew]
        refine ⟨fun _ _ ha => (nomatch ha),fun _ hn => (nomatch hn),fun _ => ?_⟩
        cases r with
        | nil => exact .inr ⟨a,[],rfl,hmode ▸ .refl _ _ _⟩
        | cons => exact .inl rfl
      · exfalso
        rcases List.prefix_or_prefix_of_prefix hk hd with hp | hp
        · rcases List.prefix_concat_iff.mp hp with rfl | hp
          · exact hunder List.prefix_rfl
          · exact hloc hp
        · exact hunder hp

/-- Writing to a directory adds nothing. -/
theorem of_touched (h : Touched loc t t') (hd : loc <+: d) : Grown mode d t t' := by
  obtain ⟨a,es,a',es',hget,ht,hkept,hlookup⟩ := id h
  have hbelow (name : Name) (r : Loc) : t'.get (loc ++ name :: r) = t.get (loc ++ name :: r) := by
    rw [(h.relinked name).get_entry r,show loc ++ name :: r = loc ++ [name] ++ r by simp,
      Node.get_append t (loc ++ [name]) r]
  refine ⟨fun k hk => ?_,fun k hk => ?_⟩
  · by_cases hloc : loc <+: k
    · obtain ⟨r,rfl⟩ := hloc
      cases r with
      | nil => exact absurd (by rwa [List.append_nil]) hk
      | cons name r => exact hbelow name r
    · rw [ht]
      exact Node.get_modify_of_apart t _ hloc fun hk' => hk (hk'.trans hd)
  · by_cases hloc : loc <+: k
    · obtain ⟨r,rfl⟩ := hloc
      cases r with
      | nil =>
        rw [List.append_nil,ht,Node.get_modify_self,hget]
        refine ⟨fun b bs hb => ?_,fun n hn hdir => ?_,fun hn => (nomatch hn)⟩
        · cases hb
          exact ⟨a',es',rfl,hkept.mono fun _ _ => trivial⟩
        · cases hn
          cases hdir
      | cons name r =>
        rw [hbelow]
        exact .refl _ _ _ _
    · -- a directory further up: its entries on the way stay, with the writing inside
      rcases List.prefix_or_prefix_of_prefix hk hd with hp | hp
      · obtain ⟨r,rfl⟩ := hp
        cases r with
        | nil => exact absurd (by simp) hloc
        | cons name r =>
          obtain ⟨b,bs,b',bs',hb,hb',hkept'⟩ := (h.relinked name).get_above (List.prefix_append k _)
          rw [hb,hb']
          refine ⟨fun e es he => ?_,fun n hn hdir => ?_,fun hn => (nomatch hn)⟩
          · cases he
            refine ⟨b',bs',rfl,hkept'.mono fun c hc hp => hc ?_⟩
            rw [List.append_assoc,List.prefix_append_right_inj,List.cons_append] at hp
            refine List.IsPrefix.trans ?_ hd
            rw [List.prefix_append_right_inj]
            rw [List.cons_prefix_cons] at hp ⊢
            exact ⟨hp.1,List.nil_prefix⟩
          · cases hn
            cases hdir
      · exact absurd hp hloc

end Grown

namespace World
variable {w : World} {loc : Loc} {c : Name} {a : Attr} {es : List (Name × Node)}

theorem setEntries_root (h : w.root.get loc = some (.dir a es))
    (f : List (Name × Node) → List (Name × Node)) :
    ∃ a', a'.mode = a.mode ∧
      (w.setEntries f loc).root = w.root.modify (fun _ => .dir a' (f es)) loc :=
  ⟨{w.newAttr a.mode with ino := a.ino},rfl,Node.modify_eq_of_get _ h⟩

theorem link_relinked (h : w.root.get loc = some (.dir a es)) (n : Node) :
    Relinked loc c (some n) w.root (w.link (loc ++ [c]) n).root := by
  obtain ⟨a',hmode,hroot⟩ := setEntries_root h (setEntry c n)
  refine ⟨a,es,a',setEntry c n es,h,?_,hmode,sameBut_setEntry c n es,?_⟩
  · rw [link,List.getLast?_concat,List.dropLast_concat]
    exact hroot
  · rw [lookup_setEntry,if_pos rfl]

theorem unlink_relinked (h : w.root.get loc = some (.dir a es)) :
    Relinked loc c none w.root (w.unlink (loc ++ [c])).root := by
  obtain ⟨a',hmode,hroot⟩ := setEntries_root h (eraseEntry c)
  refine ⟨a,es,a',eraseEntry c es,h,?_,hmode,sameBut_eraseEntry c es,?_⟩
  · rw [unlink,List.getLast?_concat,List.dropLast_concat]
    exact hroot
  · rw [lookup_eraseEntry,if_pos rfl]

theorem update_relinked {n : Node} (h : w.root.get (loc ++ [c]) = some n) (f : Node → Node) :
    Relinked loc c (some (f n)) w.root (w.update (loc ++ [c]) f).root := by
  obtain ⟨a,es,hloc,hc⟩ := Node.get_parent h
  refine ⟨a,es,a,setEntry c (f n) es,hloc,?_,rfl,sameBut_setEntry c _ es,?_⟩
  · rw [update,Node.modify_append,Node.modify_eq_of_get _ hloc]
    exact congrArg (fun m => w.root.modify (fun _ => m) loc)
      (Node.modify_cons_of_child (n := .dir a es) f [] hc)
  · rw [lookup_setEntry,if_pos rfl]

end World
end Posix
