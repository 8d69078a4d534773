import CodeExecutorApi.Executor.Changes
import CodeExecutorApi.Machine.Worklist
import CodeExecutorApi.Posix.Listing
import CodeExecutorApi.Sessions.Places

/-! The walk of a session that the executor stamps its files with: which files it yields, and when
the difference of two walks is a deletion. -/
namespace CodeExecutorApi
open Python Posix Machine

/-- The sub_path of a place of the session: `entry.path[prefix_length:]`. -/
def subPathOf (loc : Loc) : Str := join (loc.map fun c => fsdecode c.bytes)

/-- `entry.name.startswith(".")` -/
def hidden (c : Name) : Bool := (fsdecode c.bytes).head? = some 0x2E

section Walk
variable (prefixLength : ℕ) (t : Node)

/-- A directory of `_iter_session_files`: what it appends to `pending`, and what it yields. -/
def visitDirectory (directory : Loc) : List Loc × List (Str × StatResult) :=
  match scandir prefixLength t directory with
  | .error _ => ([],[])
  | .ok entries =>
    (entries.filterMap fun entry =>
      if entry.2.isDir ∧ hidden entry.1 = false then some (directory ++ [entry.1]) else none,
    entries.filterMap fun entry =>
      if entry.2.isDir then none
      else
        match lstat prefixLength t (directory ++ [entry.1]) with
        | .error _ => none
        | .ok st =>
          if st.type = .regular then some (subPathOf (directory ++ [entry.1]),st) else none)

/-- `_iter_session_files`. Every turn takes a directory, so there are enough of them. -/
def iterSessionFiles : List (Str × StatResult) :=
  (drain (visitDirectory prefixLength t) t.count [[]]).getD []

end Walk

/-- A file the walk of a tree comes to: no directory above it is hidden or closed to the owner, and
its path is not too long. -/
structure Seen (prefixLength : ℕ) (t : Node) (loc : Loc) (st : StatResult) : Prop where
  file : ∃ n, t.get loc = some n ∧ n.stat = st ∧ n.type = .regular
  shown : ∀ k c, k ++ [c] <+: loc → k ++ [c] ≠ loc → hidden c = false
  listed : ∀ k c a es, k ++ [c] <+: loc → t.get k = some (.dir a es) → a.mode.read = true
  searched : Passable t [] loc
  short : prefixLength + (relPath loc).length < pathMax

section Walk
variable {prefixLength : ℕ} {t : Node} {loc directory : Loc} {st : StatResult}

theorem count_pos (n : Node) : 0 < n.count := by
  cases n <;> simp [Node.count]

theorem mem_entries_iff {a : Attr} {es : List (Name × Node)} (h : Stored t)
    (hdir : t.get directory = some (.dir a es)) {c : Name} {n : Node} :
    (c,n) ∈ es ↔ es.lookup c = some n := by
  constructor
  · exact fun hmem => lookup_of_mem (h.nodup directory a es hdir) hmem
  · intro hlookup
    obtain ⟨l,r,rfl,-⟩ := List.lookup_eq_some_iff.mp hlookup
    simp

/-- The entry `c` that `scandir` gives for a directory. -/
def Scanned (prefixLength : ℕ) (t : Node) (directory : Loc) (c : Name) (n : Node) : Prop :=
  ∃ es, scandir prefixLength t directory = .ok es ∧ es.lookup c = some n

theorem mem_visit_dirs (h : Stored t) {d : Loc} : d ∈ (visitDirectory prefixLength t directory).1 ↔
    ∃ c n, Scanned prefixLength t directory c n ∧ n.isDir = true ∧ hidden c = false ∧
      d = directory ++ [c] := by
  unfold visitDirectory
  cases hs : scandir prefixLength t directory with
  | error e => simp [Scanned,hs]
  | ok es =>
    obtain ⟨a,hdir⟩ := get_of_scandir hs
    simp only [Scanned,hs,List.mem_filterMap,Except.ok.injEq,exists_eq_left',Prod.exists,
      Option.ite_none_right_eq_some,Option.some.injEq]
    refine exists_congr fun c => exists_congr fun n => ?_
    rw [mem_entries_iff h hdir]
    exact ⟨fun ⟨hn,⟨hd,hc⟩,he⟩ => ⟨hn,hd,hc,he.symm⟩,fun ⟨hn,hd,hc,he⟩ => ⟨hn,⟨hd,hc⟩,he.symm⟩⟩

theorem mem_visit_files (h : Stored t) {p : Str} :
    (p,st) ∈ (visitDirectory prefixLength t directory).2 ↔
      ∃ c n, Scanned prefixLength t directory c n ∧ n.isDir = false ∧
        lstat prefixLength t (directory ++ [c]) = .ok st ∧ st.type = .regular ∧
        p = subPathOf (directory ++ [c]) := by
  unfold visitDirectory
  cases hs : scandir prefixLength t directory with
  | error e => simp [Scanned,hs]
  | ok es =>
    obtain ⟨a,hdir⟩ := get_of_scandir hs
    simp only [Scanned,hs,List.mem_filterMap,Except.ok.injEq,exists_eq_left',Prod.exists]
    refine exists_congr fun c => exists_congr fun n => ?_
    rw [mem_entries_iff h hdir]
    refine and_congr_right fun _ => ?_
    cases n.isDir with
    | true => simp
    | false =>
      cases hl : lstat prefixLength t (directory ++ [c]) with
      | error e => simp
      | ok st' =>
        simp only [Bool.false_eq_true,if_false,true_and,Except.ok.injEq,
          Option.ite_none_right_eq_some,Option.some.injEq,Prod.mk.injEq]
        constructor
        · rintro ⟨hreg,rfl,rfl⟩
          exact ⟨rfl,hreg,rfl⟩
        · rintro ⟨rfl,hreg,rfl⟩
          exact ⟨hreg,rfl,rfl⟩

theorem scanned_get {c : Name} {n : Node} (h : Scanned prefixLength t directory c n) :
    t.get (directory ++ [c]) = some n := by
  obtain ⟨es,hs,hc⟩ := h
  obtain ⟨a,hdir⟩ := get_of_scandir hs
  rw [Node.get_entry hdir,hc]

/-- The loop comes to a directory through the ones above it. -/
theorem leads_iff (h : Stored t) {d : Loc} : Leads (visitDirectory prefixLength t) [] d ↔
    ∀ k c, k ++ [c] <+: d →
      hidden c = false ∧ ∃ n, Scanned prefixLength t k c n ∧ n.isDir = true := by
  induction d using List.reverseRecOn with
  | nil =>
    refine iff_of_true .refl fun k c hk => ?_
    have := hk.length_le
    simp at this
  | append_singleton d c ih =>
    have hstep : Leads (visitDirectory prefixLength t) [] (d ++ [c]) ↔
        Leads (visitDirectory prefixLength t) [] d ∧
          hidden c = false ∧ ∃ n, Scanned prefixLength t d c n ∧ n.isDir = true := by
      constructor
      · intro hl
        rcases hl.cases_tail with heq | ⟨e,he,hd⟩
        · simp at heq
        · obtain ⟨c',n,hn,hdir,hc,heq⟩ := (mem_visit_dirs h).mp hd
          obtain ⟨rfl,hcc⟩ := List.append_inj' heq rfl
          cases hcc
          exact ⟨he,hc,n,hn,hdir⟩
      · rintro ⟨hl,hc,n,hn,hdir⟩
        exact hl.tail ((mem_visit_dirs h).mpr ⟨c,n,hn,hdir,hc,rfl⟩)
    rw [hstep,ih]
    constructor
    · rintro ⟨hd,hlast⟩ k c' hk
      rcases List.prefix_concat_iff.mp hk with heq | hk
      · obtain ⟨rfl,hcc⟩ := List.append_inj' heq rfl
        cases hcc
        exact hlast
      · exact hd k c' hk
    · exact fun hall => ⟨fun k c' hk => hall k c' (hk.trans (List.prefix_append d [c])),
        hall d c List.prefix_rfl⟩

/-- The size of what is at a place. -/
def countAt (t : Node) (loc : Loc) : ℕ := ((t.get loc).map Node.count).getD 1

theorem sum_count_le (P : Name × Node → Bool) (size : Loc → ℕ) (es : List (Name × Node))
    (hsize : ∀ e ∈ es, size (directory ++ [e.1]) = e.2.count) :
    ((es.filterMap fun e => if P e then some (directory ++ [e.1]) else none).map size).sum ≤
      countEntries es := by
  induction es with
  | nil => exact le_rfl
  | cons e es ih =>
    have he := hsize e List.mem_cons_self
    have hle := ih fun d hd => hsize d (List.mem_cons_of_mem _ hd)
    rw [List.filterMap_cons,countEntries,countEntry]
    by_cases hp : P e = true
    · simp only [hp,if_true,List.map_cons,List.sum_cons,he]
      omega
    · simp only [hp]
      simp only [Bool.false_eq_true,if_false]
      omega

theorem sum_visit_lt (h : Stored t) (directory : Loc) :
    ((visitDirectory prefixLength t directory).1.map (countAt t)).sum < countAt t directory := by
  unfold visitDirectory
  cases hs : scandir prefixLength t directory with
  | error e =>
    rw [countAt]
    cases t.get directory with
    | none => exact Nat.zero_lt_one
    | some n => exact count_pos n
  | ok es =>
    obtain ⟨a,hdir⟩ := get_of_scandir hs
    have hle := sum_count_le (fun e => decide (e.2.isDir ∧ hidden e.1 = false)) (countAt t)
      es fun e he => by
        rw [countAt,Node.get_entry hdir,lookup_of_mem (h.nodup directory a es hdir) he]
        rfl
    simp only [decide_eq_true_eq] at hle
    refine Nat.lt_of_le_of_lt hle ?_
    rw [countAt,hdir]
    exact Nat.lt_succ_self _

/-- The loop ends. -/
theorem iterSessionFiles_eq (h : Stored t) :
    drain (visitDirectory prefixLength t) t.count [[]] = some (iterSessionFiles prefixLength t) := by
  have hsome : (drain (visitDirectory prefixLength t) t.count [[]]).isSome :=
    drain_isSome (countAt t) (sum_visit_lt h) (by simp [countAt])
  obtain ⟨out,hout⟩ := Option.isSome_iff_exists.mp hsome
  rw [iterSessionFiles,hout]
  rfl

/-- What `scandir` needs to give the entry. -/
theorem scanned_iff (h : Stored t) {c : Name} {n : Node} (hget : t.get (directory ++ [c]) = some n) :
    Scanned prefixLength t directory c n ↔
      (∀ a es, t.get directory = some (.dir a es) → a.mode.read = true) ∧
        prefixLength + (relPath directory).length < pathMax ∧ Passable t [] directory := by
  obtain ⟨a,es,hdir,hc⟩ := Node.get_parent hget
  have hscan := scandir_ok_iff prefixLength h hdir
  constructor
  · rintro ⟨es',hs,-⟩
    obtain ⟨b,heq,hread,hlen,hpass⟩ := (hscan es').mp hs
    obtain ⟨rfl,rfl⟩ := Node.dir.inj heq
    refine ⟨fun b bs hb => ?_,hlen,hpass⟩
    cases hdir.symm.trans hb
    exact hread
  · rintro ⟨hread,hlen,hpass⟩
    exact ⟨es,(hscan es).mpr ⟨a,rfl,hread a es hdir,hlen,hpass⟩,hc⟩

theorem length_relPath_le {k : Loc} (h : k <+: loc) : (relPath k).length ≤ (relPath loc).length := by
  obtain ⟨r,rfl⟩ := h
  rw [relPath,relPath,List.flatMap_append,List.length_append]
  omega

/-- An entry above another one is a directory. -/
theorem isDir_of_above {n m : Node} {k : Loc} (hk : k <+: loc) (hne : k ≠ loc)
    (hget : t.get loc = some n) (hm : t.get k = some m) : m.isDir = true := by
  obtain ⟨r,rfl⟩ := hk
  cases r with
  | nil => exact absurd (List.append_nil k).symm hne
  | cons c r =>
    rw [Node.get_append,hm] at hget
    cases m with
    | dir => rfl
    | file | symlink | special => cases hget

/-- A file is yielded exactly if the walk comes to it. -/
theorem mem_iterSessionFiles (h : Stored t) {p : Str} :
    (p,st) ∈ iterSessionFiles prefixLength t ↔ ∃ loc, Seen prefixLength t loc st ∧ p = subPathOf loc := by
  rw [mem_drain (iterSessionFiles_eq h)]
  constructor
  · rintro ⟨_,hmem,d,hl,hd⟩
    cases List.mem_singleton.mp hmem
    obtain ⟨c,n,hn,hdir,hstat,hreg,rfl⟩ := (mem_visit_files h).mp hd
    have hget := scanned_get hn
    obtain ⟨rfl,hshort,hpass⟩ := (lstat_ok_iff prefixLength h hget _).mp hstat
    rw [leads_iff h] at hl
    refine ⟨d ++ [c],⟨⟨n,hget,rfl,hreg⟩,fun k c' hk hne => ?_,fun k c' a es hk hk' => ?_,hpass,
      hshort⟩,rfl⟩
    · rcases List.prefix_concat_iff.mp hk with heq | hk
      · exact absurd heq hne
      · exact (hl k c' hk).1
    · have hscan : ∃ m, Scanned prefixLength t k c' m := by
        rcases List.prefix_concat_iff.mp hk with heq | hk
        · obtain ⟨rfl,hcc⟩ := List.append_inj' heq rfl
          cases hcc
          exact ⟨n,hn⟩
        · exact (hl k c' hk).2.imp fun _ hm => hm.1
      obtain ⟨m,hm⟩ := hscan
      exact ((scanned_iff h (scanned_get hm)).mp hm).1 a es hk'
  · rintro ⟨loc,hseen,rfl⟩
    obtain ⟨n,hget,rfl,hreg⟩ := hseen.file
    have hscan (k : Loc) (c : Name) (hk : k ++ [c] <+: loc) (m : Node)
        (hm : t.get (k ++ [c]) = some m) : Scanned prefixLength t k c m := by
      have hkloc : k <+: loc := (List.prefix_append k [c]).trans hk
      have hle := length_relPath_le hkloc
      have hshort := hseen.short
      refine (scanned_iff h hm).mpr ⟨fun a es => hseen.listed k c a es hk,by omega,?_⟩
      exact fun j d hj => hseen.searched j d (hj.trans hkloc)
    obtain rfl | ⟨d,c,rfl⟩ := List.eq_nil_or_concat' loc
    · cases hget
      have hroot := h.root
      rw [Node.isDir,hreg] at hroot
      cases hroot
    · refine ⟨[],List.mem_singleton.mpr rfl,d,(leads_iff h).mpr fun k c' hk => ?_,?_⟩
      · have hk' := hk.trans (List.prefix_append d [c])
        have hne : k ++ [c'] ≠ d ++ [c] := by
          intro heq
          have := hk.length_le
          have := congrArg List.length heq
          simp only [List.length_append,List.length_singleton] at *
          omega
        obtain ⟨m,hm⟩ : ∃ m, t.get (k ++ [c']) = some m := by
          obtain ⟨r,hr⟩ := hk'
          rw [← hr,Node.get_append,Option.bind_eq_some_iff] at hget
          exact hget.imp fun _ hm => hm.1
        exact ⟨hseen.shown k c' hk' hne,m,hscan k c' hk' m hm,isDir_of_above hk' hne hget hm⟩
      · refine (mem_visit_files h).mpr ⟨c,n,hscan d c List.prefix_rfl n hget,?_,?_,hreg,rfl⟩
        · simp [Node.isDir,hreg]
        · exact (lstat_ok_iff prefixLength h hget _).mpr ⟨rfl,hseen.short,hseen.searched⟩

theorem subPathOf_inj {k : Loc} (hk : k ≠ []) (hloc : loc ≠ [])
    (h : subPathOf k = subPathOf loc) : k = loc := by
  have hsplit {l : Loc} (hl : l ≠ []) : split (subPathOf l) = l.map fun c => fsdecode c.bytes := by
    refine split_join (fun s hs => ?_) (by simpa using hl)
    obtain ⟨c,_,rfl⟩ := List.mem_map.mp hs
    exact (plain_fsdecode c).slash_notMem
  have hinj : Function.Injective fun c : Name => fsdecode c.bytes := by
    rintro ⟨b,hb⟩ ⟨b',hb'⟩ he
    have he' : fsencode (fsdecode b) = fsencode (fsdecode b') := congrArg fsencode he
    rw [fsencode_fsdecode,fsencode_fsdecode] at he'
    cases he'
    rfl
  have he := congrArg split h
  rw [hsplit hk,hsplit hloc] at he
  exact hinj.list_map he

/-- The sub_paths below a directory. -/
def Below (directory : Loc) (p : Str) : Prop := ∃ r, r ≠ [] ∧ p = subPathOf (directory ++ r)

theorem below_disjoint {c d : Name} (hcd : c ≠ d) {p : Str} (hc : Below (directory ++ [c]) p) :
    ¬Below (directory ++ [d]) p := by
  rintro ⟨r,-,rfl⟩
  obtain ⟨q,-,hq⟩ := hc
  have heq := subPathOf_inj (by simp) (by simp) hq
  simp only [List.append_assoc,List.append_cancel_left_eq,List.cons_append,List.cons.injEq] at heq
  exact hcd heq.1.symm

/-- Different names make for different items. -/
theorem pairwise_filterMap_names {β : Type*} {es : List (Name × Node)} {f : Name × Node → Option β}
    {R : β → β → Prop} (h : (es.map Prod.fst).Nodup)
    (hf : ∀ e e' b b', e.1 ≠ e'.1 → f e = some b → f e' = some b' → R b b') :
    (es.filterMap f).Pairwise R := by
  rw [List.pairwise_filterMap]
  have hne : es.Pairwise fun e e' => e.1 ≠ e'.1 := List.pairwise_map.mp h
  exact hne.imp fun hne b hb b' hb' => hf _ _ b b' hne hb hb'

/-- No path is yielded twice. -/
theorem iterSessionFiles_nodup (h : Stored t) :
    ((iterSessionFiles prefixLength t).map Prod.fst).Nodup := by
  refine (nodup_drain Prod.fst Below (fun d => ?_) (fun d e he => ?_)
    (fun d k hk p hp => ?_) (fun d => ?_) (iterSessionFiles_eq h)
    (List.pairwise_singleton _ _)).1
  · unfold visitDirectory
    cases hs : scandir prefixLength t d with
    | error e => exact List.nodup_nil
    | ok es =>
      obtain ⟨a,hdir⟩ := get_of_scandir hs
      refine List.pairwise_map.mpr (pairwise_filterMap_names (h.nodup d a es hdir) ?_)
      have hpath {e : Name × Node} {b : Str × StatResult} (hb : (if e.2.isDir then none else
          match lstat prefixLength t (d ++ [e.1]) with
          | .error _ => none
          | .ok st => if st.type = .regular then some (subPathOf (d ++ [e.1]),st) else none) =
            some b) : b.1 = subPathOf (d ++ [e.1]) := by
        split at hb
        · cases hb
        split at hb
        · cases hb
        split at hb
        · cases hb
          rfl
        · cases hb
      intro e e' b b' hne hb hb' heq
      rw [hpath hb,hpath hb'] at heq
      have := subPathOf_inj (by simp) (by simp) heq
      simp only [List.append_cancel_left_eq,List.cons.injEq,and_true] at this
      exact hne this
  · obtain ⟨c,n,-,-,-,-,hp⟩ := (mem_visit_files h).mp he
    exact ⟨[c],by simp,hp⟩
  · obtain ⟨c,n,hn,hdir,-,rfl⟩ := (mem_visit_dirs h).mp hk
    obtain ⟨r,hr,rfl⟩ := hp
    refine ⟨⟨c :: r,by simp,by simp⟩,fun hmem => ?_⟩
    obtain ⟨e,he,heq⟩ := List.mem_map.mp hmem
    obtain ⟨f,m,-,-,-,-,hf⟩ := (mem_visit_files h).mp he
    rw [heq] at hf
    -- a file of the directory itself is not further down
    have hlen := congrArg List.length (subPathOf_inj (by simp) (by simp) hf)
    have := List.length_pos_of_ne_nil hr
    simp only [List.length_append,List.length_singleton] at hlen
    omega
  · unfold visitDirectory
    cases hs : scandir prefixLength t d with
    | error e => exact List.Pairwise.nil
    | ok es =>
      obtain ⟨a,hdir⟩ := get_of_scandir hs
      refine pairwise_filterMap_names (h.nodup d a es hdir) fun e e' k k' hne hk hk' p hp => ?_
      simp only [Option.ite_none_right_eq_some,Option.some.injEq] at hk hk'
      obtain ⟨-,rfl⟩ := hk
      obtain ⟨-,rfl⟩ := hk'
      exact below_disjoint hne hp

end Walk

/-- A session directory as the kernel keeps it. -/
structure SessionTree where
  root : Node
  stored : Stored root

/-- What the walk of a session yields. -/
def SessionTree.files (prefixLength : ℕ) (t : SessionTree) : Dict Str StatResult :=
  ⟨iterSessionFiles prefixLength t.root,iterSessionFiles_nodup t.stored⟩

/-- `deleted_files`, from the tree before a run and the tree after it. -/
def deletedFiles (prefixLength : ℕ) (t t' : SessionTree) : List Str :=
  (collectChanges (.init (t.files prefixLength)) (t'.files prefixLength)).2

namespace SessionTree

/-- A regular file has the path `p`. -/
def RegularAt (t : SessionTree) (p : Str) : Prop :=
  ∃ loc n, p = subPathOf loc ∧ t.root.get loc = some n ∧ n.type = .regular

/-- The owner may list and search every directory above the place. -/
def OpenTo (t : SessionTree) (loc : Loc) : Prop :=
  ∀ k c a es, k ++ [c] <+: loc → t.root.get k = some (.dir a es) →
    a.mode.read = true ∧ a.mode.search = true

variable {prefixLength : ℕ} {t t' : SessionTree} {loc : Loc} {st : StatResult} {n : Node} {p : Str}

theorem mem_files : p ∈ (t.files prefixLength).keys ↔
    ∃ loc st, Seen prefixLength t.root loc st ∧ p = subPathOf loc := by
  rw [Dict.mem_keys_iff]
  constructor
  · rintro ⟨st,hst⟩
    obtain ⟨loc,hseen,hp⟩ := (mem_iterSessionFiles t.stored).mp (Dict.get_eq_some_iff.mp hst)
    exact ⟨loc,st,hseen,hp⟩
  · rintro ⟨loc,st,hseen,hp⟩
    exact ⟨st,Dict.get_eq_some_iff.mpr ((mem_iterSessionFiles t.stored).mpr ⟨loc,hseen,hp⟩)⟩

theorem ne_nil_of_regular (hget : t.root.get loc = some n) (hreg : n.type = .regular) : loc ≠ [] := by
  rintro rfl
  cases hget
  have hroot := t.stored.root
  rw [Node.isDir,hreg] at hroot
  cases hroot

/-- Paths of regular files are different in all trees. -/
theorem eq_of_regular {m : Node} {k : Loc} (hget : t.root.get loc = some n)
    (hreg : n.type = .regular) (hget' : t'.root.get k = some m) (hreg' : m.type = .regular)
    (h : subPathOf loc = subPathOf k) : loc = k :=
  subPathOf_inj (t.ne_nil_of_regular hget hreg) (t'.ne_nil_of_regular hget' hreg') h

/-- What was seen in one tree, and is a file in another, is passed over there exactly if a directory
above it is closed to the owner. -/
theorem mem_files_of_seen (hseen : Seen prefixLength t.root loc st)
    (hget : t'.root.get loc = some n) (hreg : n.type = .regular) :
    subPathOf loc ∈ (t'.files prefixLength).keys ↔ t'.OpenTo loc := by
  rw [mem_files]
  constructor
  · rintro ⟨k,st',hseen',hp⟩ j c a es hj hdir
    obtain ⟨m,hm,-,hmreg⟩ := hseen'.file
    cases eq_of_regular hget hreg hm hmreg hp
    obtain ⟨b,bs,hb,hsearch⟩ := hseen'.searched j c hj
    rw [List.nil_append] at hb
    cases hdir.symm.trans hb
    exact ⟨hseen'.listed j c a es hj hdir,hsearch⟩
  · intro hopen
    refine ⟨loc,n.stat,⟨⟨n,hget,rfl,hreg⟩,hseen.shown,fun k c a es hk hdir => ?_,fun k c hk => ?_,
      hseen.short⟩,rfl⟩
    · exact (hopen k c a es hk hdir).1
    · obtain ⟨r,rfl⟩ := hk
      obtain ⟨m,hm⟩ : ∃ m, t'.root.get (k ++ [c]) = some m := by
        rw [Node.get_append,Option.bind_eq_some_iff] at hget
        exact hget.imp fun _ h => h.1
      obtain ⟨a,es,hdir,-⟩ := Node.get_parent hm
      exact ⟨a,es,hdir,(hopen k c a es (List.prefix_append _ r) hdir).2⟩

end SessionTree

/-- Every path in `deleted_files` was a regular file and is none any more, exactly if no file the
walk came to before the run, and that is still there, has a directory above it closed to the owner. -/
theorem deleted_files_gone_iff (prefixLength : ℕ) (t t' : SessionTree) :
    (∀ p ∈ deletedFiles prefixLength t t', t.RegularAt p ∧ ¬t'.RegularAt p) ↔
      ∀ loc st n, Seen prefixLength t.root loc st → t'.root.get loc = some n → n.type = .regular →
        t'.OpenTo loc := by
  have hmem (p : Str) : p ∈ deletedFiles prefixLength t t' ↔
      p ∈ (t.files prefixLength).keys ∧ p ∉ (t'.files prefixLength).keys := mem_deletedFiles _ _ p
  constructor
  · intro h loc st n hseen hget hreg
    rw [← SessionTree.mem_files_of_seen hseen hget hreg]
    by_contra hno
    have hbefore := SessionTree.mem_files.mpr ⟨loc,st,hseen,rfl⟩
    exact (h _ ((hmem _).mpr ⟨hbefore,hno⟩)).2 ⟨loc,n,rfl,hget,hreg⟩
  · intro h p hp
    obtain ⟨hbefore,hafter⟩ := (hmem p).mp hp
    obtain ⟨loc,st,hseen,rfl⟩ := SessionTree.mem_files.mp hbefore
    obtain ⟨n,hget,-,hreg⟩ := hseen.file
    refine ⟨⟨loc,n,rfl,hget,hreg⟩,?_⟩
    rintro ⟨k,m,hk,hm,hmreg⟩
    cases SessionTree.eq_of_regular hget hreg hm hmreg hk
    exact hafter ((SessionTree.mem_files_of_seen hseen hm hmreg).mpr (h loc st m hseen hm hmreg))

/-- A session with one file in one directory of the given mode. -/
def fileInDirectory (mode : Mode) : SessionTree where
  root := .dir ⟨1,⟨true,true,true⟩,0,0,0⟩ [(⟨[0x64],isName_d⟩,.dir ⟨2,mode,0,0,0⟩
    [(⟨[0x66],isName_f⟩,.file ⟨3,⟨true,true,false⟩,0,0,0⟩ [0x78])])]
  stored := .dir (by simp) (by simp [nameMax]) fun e he _ => by
    rw [List.mem_singleton.mp he]
    exact .dir (by simp) (by simp [nameMax]) (by simp [Node.isDir,Node.type])

/-- Code that takes all permissions from a directory makes the file in it count as deleted. -/
theorem locked_file_reported_deleted : ¬∀ (prefixLength : ℕ) (t t' : SessionTree),
    ∀ p ∈ deletedFiles prefixLength t t', t.RegularAt p ∧ ¬t'.RegularAt p := by
  intro hclaim
  have hfile (mode : Mode) : (fileInDirectory mode).RegularAt (lit "d/f") :=
    ⟨[⟨[0x64],isName_d⟩,⟨[0x66],isName_f⟩],_,by decide,rfl,rfl⟩
  refine (hclaim 30 (fileInDirectory ⟨true,true,true⟩) (fileInDirectory ⟨false,false,false⟩)
    (lit "d/f") ?_).2 (hfile _)
  exact (mem_deletedFiles _ _ _).mpr ⟨by decide,by decide⟩

end CodeExecutorApi
