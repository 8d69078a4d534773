import Mathlib.Data.List.Induction
import CodeExecutorApi.Python.Calls
import CodeExecutorApi.Sessions.Files

/-! Session trees whose directories can be traversed, and the places in them that sub_paths name. -/
namespace CodeExecutorApi
open Python Posix Machine

/-- A directory tree as a kernel keeps one, in which every directory can be listed and searched. -/
structure Traversable (t : Node) : Prop where
  root : t.isDir = true
  mode : ∀ loc a es, t.get loc = some (.dir a es) → a.mode.read = true ∧ a.mode.search = true
  nodup : ∀ loc a es, t.get loc = some (.dir a es) → (es.map Prod.fst).Nodup
  short : ∀ loc a es, t.get loc = some (.dir a es) → ∀ e ∈ es, e.1.bytes.length ≤ nameMax

def Short (loc : Loc) : Prop := ∀ c ∈ loc, c.bytes.length ≤ nameMax

theorem Node.eq_dir {n : Node} (h : n.isDir = true) : ∃ a es, n = .dir a es := by
  cases n with
  | dir a es => exact ⟨a,es,rfl⟩
  | file | symlink | special => cases h

/-- A name on the way to a place. -/
theorem Short.of_prefix {loc k : Loc} {c : Name} (h : Short loc) (hc : k ++ [c] <+: loc) :
    c.bytes.length ≤ nameMax := h c (hc.subset (by simp))

namespace Traversable
variable {t t' : Node} {d loc : Loc} {c : Name}

theorem short_of_get (h : Traversable t) {n : Node} (hget : t.get loc = some n) : Short loc := by
  induction loc using List.reverseRecOn generalizing n with
  | nil => intro c hc; cases hc
  | append_singleton loc c ih =>
    obtain ⟨a,es,hdir,hc⟩ := Node.get_parent hget
    intro k hk
    rcases List.mem_append.mp hk with hk | hk
    · exact ih hdir k hk
    · rw [List.mem_singleton.mp hk]
      obtain ⟨l,r,rfl,_⟩ := List.lookup_eq_some_iff.mp hc
      exact h.short loc a _ hdir (c,n) (by simp)

/-- A directory that keeps its mode and its entries off a way of short names. -/
theorem of_dirKept {mode mode' : Mode} {es es' : List (Name × Node)} {k : Loc}
    (h : DirKept (fun n => ¬k ++ [n] <+: d) mode es mode' es') (hd : Short d)
    (hmode : mode.read = true ∧ mode.search = true) (hnodup : (es.map Prod.fst).Nodup)
    (hshort : ∀ e ∈ es, e.1.bytes.length ≤ nameMax) :
    (mode'.read = true ∧ mode'.search = true) ∧ (es'.map Prod.fst).Nodup ∧
      ∀ e ∈ es', e.1.bytes.length ≤ nameMax := by
  refine ⟨h.mode ▸ hmode,h.nodup hnodup,fun e he => ?_⟩
  by_cases hway : k ++ [e.1] <+: d
  · exact hd.of_prefix hway
  · exact hshort e ((h.mem e hway).mp he)

/-- What to show for a changed tree. -/
theorem of_dirs (hroot : t'.isDir = true) (h : ∀ loc a es, t'.get loc = some (.dir a es) →
    (a.mode.read = true ∧ a.mode.search = true) ∧ (es.map Prod.fst).Nodup ∧
      ∀ e ∈ es, e.1.bytes.length ≤ nameMax) : Traversable t' :=
  ⟨hroot,fun loc a es hget => (h loc a es hget).1,fun loc a es hget => (h loc a es hget).2.1,
    fun loc a es hget => (h loc a es hget).2.2⟩

theorem dirs (h : Traversable t) {a : Attr} {es : List (Name × Node)}
    (hget : t.get loc = some (.dir a es)) : (a.mode.read = true ∧ a.mode.search = true) ∧
      (es.map Prod.fst).Nodup ∧ ∀ e ∈ es, e.1.bytes.length ≤ nameMax :=
  ⟨h.mode loc a es hget,h.nodup loc a es hget,h.short loc a es hget⟩

theorem grown (h : Traversable t) (hg : Grown Session.dirMode d t t') (hd : Short d) :
    Traversable t' := by
  have hroot : t'.isDir = true := by
    obtain ⟨a,es,ht⟩ := Node.eq_dir h.root
    obtain ⟨a',es',hget,_⟩ := (hg.above [] List.nil_prefix).dir a es (by rw [ht]; rfl)
    cases hget
    rfl
  refine of_dirs hroot fun k a es hget => ?_
  by_cases hk : k <+: d
  · cases hn : t.get k with
    | none =>
      rcases (hg.above k hk).missing hn with hnone | ⟨b,bs,hget',hkept⟩
      · rw [hnone] at hget
        cases hget
      · rw [hget'] at hget
        cases hget
        exact of_dirKept hkept hd ⟨rfl,rfl⟩ List.nodup_nil (by simp)
    | some n =>
      cases n with
      | dir b bs =>
        obtain ⟨b',bs',hget',hkept⟩ := (hg.above k hk).dir b bs hn
        rw [hget'] at hget
        cases hget
        obtain ⟨hmode,hnodup,hshort⟩ := h.dirs hn
        exact of_dirKept hkept hd hmode hnodup hshort
      | file | symlink | special =>
        rw [(hg.above k hk).other _ hn rfl] at hget
        cases hget
  · rw [hg.beside k hk] at hget
    exact h.dirs hget

/-- An entry that is no directory may come and go. -/
theorem relinked (h : Traversable t) {o : Option Node} (hr : Relinked loc c o t t')
    (ho : ∀ n, o = some n → n.isDir = false) (hc : c.bytes.length ≤ nameMax) : Traversable t' := by
  obtain ⟨a,es,a',es',hloc,_⟩ := hr.get_loc
  have hshort : Short (loc ++ [c]) := by
    intro k hk
    rcases List.mem_append.mp hk with hk | hk
    · exact h.short_of_get hloc k hk
    · rw [List.mem_singleton.mp hk]
      exact hc
  have habove (k : Loc) (hk : k <+: loc) (b : Attr) (bs : List (Name × Node))
      (hget : t'.get k = some (.dir b bs)) : (b.mode.read = true ∧ b.mode.search = true) ∧
        (bs.map Prod.fst).Nodup ∧ ∀ e ∈ bs, e.1.bytes.length ≤ nameMax := by
    obtain ⟨b,bs,b',bs',hb,hb',hkept⟩ := hr.get_above hk
    rw [hb'] at hget
    cases hget
    obtain ⟨hmode,hnodup,hshort'⟩ := h.dirs hb
    exact of_dirKept hkept hshort hmode hnodup hshort'
  have hroot : t'.isDir = true := by
    obtain ⟨b,bs,b',bs',hb,hb',_⟩ := hr.get_above (k := []) List.nil_prefix
    cases hb'
    rfl
  refine of_dirs hroot fun k b bs hget => ?_
  by_cases hk : k <+: loc
  · exact habove k hk b bs hget
  by_cases hunder : loc ++ [c] <+: k
  · obtain ⟨r,rfl⟩ := hunder
    rw [List.append_assoc,List.singleton_append,hr.get_entry,Option.bind_eq_some_iff] at hget
    obtain ⟨n,hn,hget⟩ := hget
    have hdir := ho n hn
    cases r with
    | nil =>
      cases hget
      cases hdir
    | cons name r =>
      cases n with
      | dir => cases hdir
      | file | symlink | special => cases hget
  · rw [hr.get_beside hunder hk] at hget
    exact h.dirs hget

end Traversable
/-- Why a walk ends early. -/
inductive NoWay
  | missing
  | badName
  deriving DecidableEq, Repr

/-- The exceptions that say so. -/
def NoWay.Raises : NoWay → Exc AppError → Prop
  | .missing, e => ∃ errno, e = .os .fileNotFound errno
  | .badName, e => IsBadName e

/-- The place a list of components names, if all of them can be names. -/
def place : List Str → Option Loc
  | [] => some []
  | s :: ss => (nameOf s).bind fun c => (place ss).map fun p => c :: p

/-- The way to it as far as there can be one. -/
def way : List Str → Loc
  | [] => []
  | s :: ss =>
    match nameOf s with
    | some c => c :: way ss
    | none => []

/-- The directory a walk from `loc` ends in. -/
def dirFrom (t : Node) : Loc → List Str → Except NoWay Loc
  | loc, [] => .ok loc
  | loc, s :: ss =>
    match nameOf s with
    | none => .error .badName
    | some c =>
      match t.get (loc ++ [c]) with
      | some (.dir ..) => dirFrom t (loc ++ [c]) ss
      | _ => .error .missing

section Places
variable {t : Node} {loc loc' p : Loc} {s : Str} {ss : List Str} {c : Name}

theorem way_of_place (h : place ss = some p) : way ss = p := by
  induction ss generalizing p with
  | nil => exact Option.some.inj h
  | cons s ss ih =>
    rw [place,Option.bind_eq_some_iff] at h
    obtain ⟨c,hc,h⟩ := h
    obtain ⟨q,hq,rfl⟩ := Option.map_eq_some_iff.mp h
    rw [way,hc]
    exact congrArg (c :: ·) (ih hq)

theorem place_append (ss : List Str) (s : Str) :
    place (ss ++ [s]) = (place ss).bind fun p => (nameOf s).map fun c => p ++ [c] := by
  induction ss with
  | nil => cases h : nameOf s <;> simp [place,h]
  | cons r ss ih =>
    rw [List.cons_append,place,place,ih]
    cases nameOf r with
    | none => rfl
    | some d =>
      cases place ss with
      | none => rfl
      | some p => cases nameOf s <;> rfl

theorem way_prefix_append (ss rest : List Str) : way ss <+: way (ss ++ rest) := by
  induction ss with
  | nil => exact List.nil_prefix
  | cons s ss ih =>
    rw [List.cons_append,way,way]
    cases nameOf s with
    | none => exact List.prefix_rfl
    | some c => exact List.cons_prefix_cons.mpr ⟨rfl,ih⟩

theorem short_way (ss : List Str) : Short (way ss) := by
  induction ss with
  | nil =>
    intro c hc
    cases hc
  | cons s ss ih =>
    intro c hc
    rw [way] at hc
    cases hs : nameOf s with
    | none =>
      rw [hs] at hc
      cases hc
    | some d =>
      rw [hs] at hc
      rcases List.mem_cons.mp hc with rfl | hc
      · exact (nameOf_eq_some hs).2
      · exact ih c hc

theorem dirFrom_cons_of_error {r : NoWay} (h : dirFrom t loc [s] = .error r) :
    dirFrom t loc (s :: ss) = .error r := by
  rw [dirFrom] at h ⊢
  cases hc : nameOf s with
  | none =>
    rw [hc] at h
    exact h
  | some c =>
    rw [hc] at h
    dsimp only at h ⊢
    split at h
    · cases h
    · exact h

theorem dirFrom_cons_of_dir (ss : List Str) {a : Attr} {es : List (Name × Node)}
    (hc : nameOf s = some c) (h : t.get (loc ++ [c]) = some (.dir a es)) :
    dirFrom t loc (s :: ss) = dirFrom t (loc ++ [c]) ss := by
  rw [dirFrom,hc]
  simp only [h]

theorem dirFrom_ok (h : dirFrom t loc ss = .ok loc') :
    ∃ p, place ss = some p ∧ loc' = loc ++ p := by
  induction ss generalizing loc with
  | nil =>
    cases h
    exact ⟨[],rfl,(List.append_nil _).symm⟩
  | cons s ss ih =>
    rw [dirFrom] at h
    cases hc : nameOf s with
    | none =>
      rw [hc] at h
      cases h
    | some c =>
      simp only [hc] at h
      split at h
      · obtain ⟨p,hp,rfl⟩ := ih h
        exact ⟨c :: p,by rw [place,hc,hp]; rfl,by simp⟩
      · cases h

theorem dirFrom_dir (h : dirFrom t loc ss = .ok loc') (hdir : ∃ a es, t.get loc = some (.dir a es)) :
    ∃ a es, t.get loc' = some (.dir a es) := by
  induction ss generalizing loc with
  | nil =>
    cases h
    exact hdir
  | cons s ss ih =>
    rw [dirFrom] at h
    split at h
    · cases h
    · split at h
      · exact ih h ⟨_,_,‹_›⟩
      · cases h

/-- A walk that leads to a directory leads there in every tree that has it. -/
theorem dirFrom_of_place (hp : place ss = some p) {a : Attr} {es : List (Name × Node)}
    (h : t.get (loc ++ p) = some (.dir a es)) : dirFrom t loc ss = .ok (loc ++ p) := by
  induction ss generalizing loc p with
  | nil =>
    cases hp
    rw [List.append_nil]
    rfl
  | cons s ss ih =>
    rw [place,Option.bind_eq_some_iff] at hp
    obtain ⟨c,hc,hp⟩ := hp
    obtain ⟨q,hq,rfl⟩ := Option.map_eq_some_iff.mp hp
    rw [show loc ++ c :: q = (loc ++ [c]) ++ q by simp] at h ⊢
    have hdir : ∃ b bs, t.get (loc ++ [c]) = some (.dir b bs) := by
      cases q with
      | nil => exact ⟨a,es,by rwa [List.append_nil] at h⟩
      | cons d q =>
        rw [show loc ++ [c] ++ d :: q = (loc ++ [c] ++ [d]) ++ q by simp,Node.get_append,
          Option.bind_eq_some_iff] at h
        obtain ⟨n,hn,_⟩ := h
        obtain ⟨b,bs,hb,_⟩ := Node.get_parent hn
        exact ⟨b,bs,hb⟩
    obtain ⟨b,bs,hb⟩ := hdir
    rw [dirFrom,hc]
    simp only [hb]
    exact ih hq h

/-- Nothing is where no walk leads. -/
theorem get_of_missing (h : dirFrom t loc ss = .error .missing) (hp : place ss = some p) (r : Loc)
    (hr : r ≠ []) : t.get (loc ++ p ++ r) = none := by
  cases hget : t.get (loc ++ p ++ r) with
  | none => rfl
  | some n =>
    obtain ⟨d,r,rfl⟩ := List.exists_cons_of_ne_nil hr
    rw [show loc ++ p ++ d :: r = (loc ++ p ++ [d]) ++ r by simp,Node.get_append,
      Option.bind_eq_some_iff] at hget
    obtain ⟨m,hm,_⟩ := hget
    obtain ⟨a,es,hdir,_⟩ := Node.get_parent hm
    rw [dirFrom_of_place hp hdir] at h
    cases h

end Places

end CodeExecutorApi
