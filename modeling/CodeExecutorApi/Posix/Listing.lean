import Mathlib.Data.List.Induction
import CodeExecutorApi.Posix.Change

/-! Directories and entries looked up by their paths, as `scandir` and `lstat` do below a directory
that the process can reach. -/
namespace Posix

/-- A tree as a kernel keeps one: the names of a directory are different and not too long. -/
structure Stored (t : Node) : Prop where
  root : t.isDir = true
  nodup : ∀ loc a es, t.get loc = some (.dir a es) → (es.map Prod.fst).Nodup
  short : ∀ loc a es, t.get loc = some (.dir a es) → ∀ e ∈ es, e.1.bytes.length ≤ nameMax

/-- Trees are stored if their parts are. -/
theorem Stored.dir {a : Attr} {es : List (Name × Node)} (hnodup : (es.map Prod.fst).Nodup)
    (hshort : ∀ e ∈ es, e.1.bytes.length ≤ nameMax)
    (h : ∀ e ∈ es, e.2.isDir = true → Stored e.2) : Stored (.dir a es) := by
  have hall (loc : Loc) (b : Attr) (bs : List (Name × Node))
      (hget : (Node.dir a es).get loc = some (.dir b bs)) :
      (bs.map Prod.fst).Nodup ∧ ∀ e ∈ bs, e.1.bytes.length ≤ nameMax := by
    cases loc with
    | nil =>
      cases hget
      exact ⟨hnodup,hshort⟩
    | cons c loc =>
      obtain ⟨n,hn,hget⟩ := Option.bind_eq_some_iff.mp hget
      obtain ⟨l,r,hes,-⟩ := List.lookup_eq_some_iff.mp hn
      have hdir : n.isDir = true := by
        cases n with
        | dir => rfl
        | file | symlink | special => cases loc <;> cases hget
      have hmem : (c,n) ∈ es := by
        change es = _ at hes
        rw [hes]
        simp
      have hsub := h (c,n) hmem hdir
      exact ⟨hsub.nodup loc b bs hget,hsub.short loc b bs hget⟩
  exact ⟨rfl,fun loc b bs hget => (hall loc b bs hget).1,fun loc b bs hget => (hall loc b bs hget).2⟩

theorem Stored.short_of_get {t n : Node} {loc : Loc} (h : Stored t) (hget : t.get loc = some n) :
    ∀ c ∈ loc, c.bytes.length ≤ nameMax := by
  induction loc using List.reverseRecOn generalizing n with
  | nil => simp
  | append_singleton loc c ih =>
    obtain ⟨a,es,hdir,hc⟩ := Node.get_parent hget
    intro d hd
    rcases List.mem_append.mp hd with hd | hd
    · exact ih hdir d hd
    · rw [List.mem_singleton.mp hd]
      obtain ⟨l,r,rfl,-⟩ := List.lookup_eq_some_iff.mp hc
      exact h.short loc a _ hdir (c,n) (by simp)

mutual

/-- The number of entries of a tree, its root included. -/
def Node.count : Node → ℕ
  | .dir _ es => countEntries es + 1
  | .file .. | .symlink .. | .special .. => 1

def countEntry : Name × Node → ℕ
  | (_,n) => n.count

def countEntries : List (Name × Node) → ℕ
  | [] => 0
  | e :: es => countEntry e + countEntries es

end

example : (Node.dir ⟨0,⟨true,true,true⟩,0,0,0⟩ []).count = 1 := by decide

/-- The path of a place, from the directory on that the tree is kept in. -/
def relPath (loc : Loc) : Bytes := loc.flatMap fun c => separator :: c.bytes

theorem intercalate_nil_cons {α : Type*} (a : α) (parts : List (List α)) :
    [a].intercalate ([] :: parts) = parts.flatMap fun w => a :: w := by
  induction parts with
  | nil => rfl
  | cons w parts ih =>
    rw [List.intercalate_cons_cons,List.flatMap_cons,List.nil_append,List.singleton_append]
    cases parts with
    | nil => simp
    | cons v parts =>
      rw [List.intercalate_cons_cons] at ih ⊢
      rw [← ih]
      simp

theorem comps_relPath (loc : Loc) : comps (relPath loc) = loc.map Name.bytes := by
  have hflat : relPath loc = [separator].intercalate ([] :: loc.map Name.bytes) := by
    rw [intercalate_nil_cons,relPath,List.flatMap_map]
  have hsplit : (relPath loc).splitOn separator = [] :: loc.map Name.bytes := by
    rw [hflat]
    refine List.splitOn_intercalate separator (fun w hw => ?_) (List.cons_ne_nil _ _)
    rcases List.mem_cons.mp hw with rfl | hw
    · exact List.not_mem_nil
    · obtain ⟨c,-,rfl⟩ := List.mem_map.mp hw
      exact c.isName.separator_notMem
  rw [comps,hsplit,List.filter_cons_of_neg (by simp),List.filter_eq_self]
  intro w hw
  obtain ⟨c,-,rfl⟩ := List.mem_map.mp hw
  simpa using c.isName.ne_nil

section Lookup
variable (prefixLength : ℕ) (t : Node)

/-- Look up the path of a place. The path of the tree itself has `prefixLength` bytes. -/
def lookupPath (loc : Loc) : Except Errno Node :=
  if pathMax ≤ prefixLength + (relPath loc).length then .error .enametoolong
  else
    match descend t false (fun _ _ => .error .eloop) [] (loc.map Name.bytes) with
    | .ok place =>
      match t.get place with
      | some n => .ok n
      | none => .error .enoent
    | .error e => .error e

/-- `os.scandir`. The type of an entry comes with its name. -/
def scandir (loc : Loc) : Except Errno (List (Name × Node)) :=
  match lookupPath prefixLength t loc with
  | .ok (.dir a es) => if a.mode.read then .ok es else .error .eacces
  | .ok _ => .error .enotdir
  | .error e => .error e

/-- `lstat` -/
def lstat (loc : Loc) : Except Errno StatResult := (lookupPath prefixLength t loc).map Node.stat

end Lookup

/-- The directory at a place, which may be searched. -/
def SearchableAt (t : Node) (loc : Loc) : Prop :=
  ∃ a es, t.get loc = some (.dir a es) ∧ a.mode.search = true

/-- Every directory on the way from `k` down may be searched. -/
def Passable (t : Node) (k loc : Loc) : Prop := ∀ j c, j ++ [c] <+: loc → SearchableAt t (k ++ j)

section Lookup
variable {prefixLength : ℕ} {t n : Node} {k loc : Loc} {c : Name}

theorem passable_nil (t : Node) (k : Loc) : Passable t k [] := by
  intro j c h
  have := h.length_le
  simp at this

theorem passable_cons : Passable t k (c :: loc) ↔ SearchableAt t k ∧ Passable t (k ++ [c]) loc := by
  constructor
  · intro h
    refine ⟨?_,fun j d hj => ?_⟩
    · have hk := h [] c (by simp)
      rwa [List.append_nil] at hk
    · have hk := h (c :: j) d (by simpa using hj)
      rwa [List.append_assoc]
  · rintro ⟨hk,h⟩ j d hj
    cases j with
    | nil => rwa [List.append_nil]
    | cons e j =>
      rw [List.cons_append,List.cons_prefix_cons] at hj
      obtain ⟨rfl,hj⟩ := hj
      have hjd := h j d hj
      rwa [List.append_assoc] at hjd

/-- Names of entries lead down to the place they make up, or some directory may not be searched. -/
theorem descend_names (onLink : Loc → List Bytes → Except Errno Loc)
    (hget : t.get (k ++ loc) = some n) (hshort : ∀ c ∈ loc, c.bytes.length ≤ nameMax) :
    descend t false onLink k (loc.map Name.bytes) = .ok (k ++ loc) ∧ Passable t k loc ∨
      descend t false onLink k (loc.map Name.bytes) = .error .eacces ∧ ¬Passable t k loc := by
  induction loc generalizing k with
  | nil => exact .inl ⟨by rw [List.append_nil]; rfl,passable_nil t k⟩
  | cons c loc ih =>
    rw [show k ++ c :: loc = k ++ [c] ++ loc by simp] at hget ⊢
    have hc := c.isName
    obtain ⟨m,hm⟩ : ∃ m, t.get (k ++ [c]) = some m := by
      rw [Node.get_append,Option.bind_eq_some_iff] at hget
      exact hget.imp fun _ h => h.1
    obtain ⟨a,es,hdir,hlookup⟩ := Node.get_parent hm
    have hlen := Nat.not_lt.mpr (hshort c List.mem_cons_self)
    rw [passable_cons,List.map_cons]
    simp only [descend,hdir,hc.ne_thisDir,hc.ne_parentDir,if_false,dif_pos hc,if_neg hlen,hlookup]
    by_cases hsearch : a.mode.search = false
    · rw [if_pos hsearch]
      refine .inr ⟨rfl,fun h => ?_⟩
      obtain ⟨b,bs,hb,hb'⟩ := h.1
      cases hdir.symm.trans hb
      rw [hsearch] at hb'
      cases hb'
    · have hat : SearchableAt t k := ⟨a,es,hdir,by simpa using hsearch⟩
      rw [if_neg hsearch,and_iff_right hat]
      have hrest := ih hget fun d hd => hshort d (List.mem_cons_of_mem _ hd)
      cases m with
      | symlink b target =>
        -- nothing is below a link, so the name is the last one
        cases loc with
        | nil => exact .inl ⟨by simp,passable_nil _ _⟩
        | cons d loc =>
          rw [Node.get_append,hm] at hget
          cases hget
      | dir | file | special => exact hrest

/-- A path leads to the entry it is the path of if it is short enough and every directory above
the entry may be searched. Otherwise it leads nowhere. -/
theorem lookupPath_ok_iff (prefixLength : ℕ) (h : Stored t) (hget : t.get loc = some n) (m : Node) :
    lookupPath prefixLength t loc = .ok m ↔
      m = n ∧ prefixLength + (relPath loc).length < pathMax ∧ Passable t [] loc := by
  unfold lookupPath
  split_ifs with hlen
  · exact iff_of_false nofun fun h => absurd h.2.1 (Nat.not_lt.mpr hlen)
  · rcases descend_names (fun _ _ => .error .eloop) (k := []) hget (h.short_of_get hget) with h | h
    · rw [h.1]
      simp only [List.nil_append,hget,Except.ok.injEq]
      exact ⟨fun hm => ⟨hm.symm,Nat.not_le.mp hlen,h.2⟩,fun hm => hm.1.symm⟩
    · rw [h.1]
      exact iff_of_false nofun fun h' => h.2 h'.2.2

theorem scandir_ok_iff (prefixLength : ℕ) (h : Stored t) (hget : t.get loc = some n)
    (entries : List (Name × Node)) :
    scandir prefixLength t loc = .ok entries ↔ ∃ a, n = .dir a entries ∧ a.mode.read = true ∧
      prefixLength + (relPath loc).length < pathMax ∧ Passable t [] loc := by
  have hlook := lookupPath_ok_iff prefixLength h hget
  unfold scandir
  cases hl : lookupPath prefixLength t loc with
  | error e =>
    refine iff_of_false nofun fun ⟨a,hn,_,hlen,hpass⟩ => ?_
    have := (hlook n).mpr ⟨rfl,hlen,hpass⟩
    rw [hl] at this
    cases this
  | ok m =>
    obtain ⟨rfl,hlen,hpass⟩ := (hlook m).mp hl
    cases m with
    | dir a es =>
      by_cases hread : a.mode.read = true
      · simp [hread,hlen,hpass]
      · simp [hread]
    | file | symlink | special => simp

theorem lstat_ok_iff (prefixLength : ℕ) (h : Stored t) (hget : t.get loc = some n)
    (st : StatResult) :
    lstat prefixLength t loc = .ok st ↔
      st = n.stat ∧ prefixLength + (relPath loc).length < pathMax ∧ Passable t [] loc := by
  have hlook := lookupPath_ok_iff prefixLength h hget
  unfold lstat
  cases hl : lookupPath prefixLength t loc with
  | error e =>
    refine iff_of_false nofun fun ⟨_,hlen,hpass⟩ => ?_
    have := (hlook n).mpr ⟨rfl,hlen,hpass⟩
    rw [hl] at this
    cases this
  | ok m =>
    obtain ⟨rfl,hlen,hpass⟩ := (hlook m).mp hl
    change Except.ok m.stat = .ok st ↔ _
    simp [hlen,hpass,eq_comm]

/-- A path leads nowhere but to its place. -/
theorem eq_of_descend {p : Loc} (h : descend t false (fun _ _ => .error .eloop) k
    (loc.map Name.bytes) = .ok p) : p = k ++ loc := by
  induction loc generalizing k with
  | nil =>
    cases h
    simp
  | cons c loc ih =>
    have hc := c.isName
    rw [show k ++ c :: loc = k ++ [c] ++ loc by simp]
    rw [List.map_cons] at h
    unfold descend at h
    split at h
    · simp only [hc.ne_thisDir,hc.ne_parentDir,if_false,dif_pos hc] at h
      split at h
      · cases h
      split at h
      · cases h
      split at h
      · split_ifs at h with hloc
        cases h
        rw [List.map_eq_nil_iff.mp hloc,List.append_nil]
      · split_ifs at h with hloc
        cases h
        rw [List.map_eq_nil_iff.mp hloc.1,List.append_nil]
      · exact ih h
    · cases h

theorem get_of_lookupPath (h : lookupPath prefixLength t loc = .ok n) : t.get loc = some n := by
  unfold lookupPath at h
  split_ifs at h
  split at h
  · rename_i p hp
    rw [eq_of_descend hp,List.nil_append] at h
    split at h
    · cases h
      assumption
    · cases h
  · cases h

theorem get_of_scandir {entries : List (Name × Node)} (h : scandir prefixLength t loc = .ok entries) :
    ∃ a, t.get loc = some (.dir a entries) := by
  unfold scandir at h
  split at h
  · split_ifs at h
    cases h
    exact ⟨_,get_of_lookupPath ‹_›⟩
  · cases h
  · cases h

end Lookup
end Posix
