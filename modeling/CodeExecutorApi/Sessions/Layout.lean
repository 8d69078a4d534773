import CodeExecutorApi.Sessions.Directories
import CodeExecutorApi.Sessions.Uploading

/-! Uploads to a session that nothing but the server has written to, on a host where nothing fails:
which directories and files it holds then, and why one is refused. -/
namespace CodeExecutorApi
open Python Posix Machine

/-- A host where no call fails, no task is cancelled and, before the call `last`, no token is drawn
twice. -/
structure Serene (env : Environment) (last : ℕ) : Prop where
  fault : ∀ call n, env.fault call n = none
  interrupt : ∀ n, env.interrupt n = false
  drawn : ∀ n, Drawable (env.random n)
  distinct : Set.InjOn env.random (Set.Iio last)

theorem Serene.reliable {env : Environment} {last : ℕ} (h : Serene env last) : env.Reliable :=
  fun call n _ => h.fault call n

theorem Serene.steady {env : Environment} {last : ℕ} (h : Serene env last) : env.Steady := by
  refine ⟨h.reliable,fun call n e he => ?_,h.interrupt⟩
  rw [h.fault] at he
  cases he

/-- Every directory has all permissions. -/
def Roomy (t : Node) : Prop :=
  ∀ loc a es, t.get loc = some (.dir a es) → a.mode = Session.dirMode

/-- No component of the path is the name of a temporary file. -/
def Clear (env : Environment) (p : Str) : Prop :=
  ∀ s ∈ split p, ∀ c, nameOf s = some c → ¬TempName env c

section Trees
variable {t t' : Node} {loc : Loc} {p : Str}

theorem Roomy.stays (h : Roomy t) (hs : Stays t t') (hd : t'.dirs = t.dirs) : Roomy t' := by
  intro k a es hget
  have hmem : k ∈ t'.dirs := ⟨a,es,hget⟩
  rw [hd] at hmem
  obtain ⟨b,bs,hget'⟩ := hmem
  obtain ⟨a',es',hget'',hmode⟩ := hs k b bs hget'
  cases hget.symm.trans hget''
  exact hmode.trans (h k b bs hget')

theorem Roomy.grown {d : Loc} (h : Roomy t) (hg : Grown Session.dirMode d t t') : Roomy t' := by
  intro k a es hget
  by_cases hk : k <+: d
  · cases hn : t.get k with
    | none =>
      rcases (hg.above k hk).missing hn with hnone | ⟨b,bs,hget',hkept⟩
      · rw [hget] at hnone
        cases hnone
      · cases hget.symm.trans hget'
        exact hkept.mode
    | some n =>
      cases n with
      | dir b bs =>
        obtain ⟨b',bs',hget',hkept⟩ := (hg.above k hk).dir b bs hn
        cases hget.symm.trans hget'
        exact hkept.mode.trans (h k b bs hn)
      | file | symlink | special =>
        cases hget.symm.trans ((hg.above k hk).other _ hn rfl)
  · exact h k a es ((hg.beside k hk).symm.trans hget)

theorem modeAt_roomy (h : Roomy t) (hleaf : t.leaf loc = none) :
    modeAt t loc = Session.dirMode := by
  unfold modeAt
  cases hn : t.get loc with
  | none => rfl
  | some n =>
    cases n with
    | dir a es => exact h loc a es hn
    | file | symlink | special =>
      rw [Node.leaf_of_get hn rfl] at hleaf
      cases hleaf

/-- Where a walk that makes directories ends: at the place of its path, if nothing else is on the
way. -/
theorem enterFrom_roomy (h : Roomy t) {ss : List Str} {l : Loc} (hdir : loc ∈ t.dirs) :
    enterFrom true t loc ss = .ok l ↔
      ∃ q, place ss = some q ∧ l = loc ++ q ∧ ∀ k, k <+: q → t.leaf (loc ++ k) = none := by
  induction ss generalizing loc with
  | nil =>
    obtain ⟨a,es,hget⟩ := hdir
    rw [enterFrom,place]
    constructor
    · rintro ⟨⟩
      refine ⟨[],rfl,(List.append_nil _).symm,fun k hk => ?_⟩
      rw [List.prefix_nil.mp hk,List.append_nil]
      exact Node.leaf_of_dir hget
    · rintro ⟨q,⟨⟩,rfl,_⟩
      rw [List.append_nil]
  | cons s ss ih =>
    obtain ⟨a,es,hget⟩ := hdir
    have hmode := h loc a es hget
    cases hc : nameOf s with
    | none =>
      rw [enterFrom_unnamed hc,place,hc]
      simp
    | some c =>
      rw [enterFrom_cons hget hc,hmode,if_neg (by decide),place,hc,Option.bind_some]
      have hcons {q : Loc} : (∀ k, k <+: c :: q → t.leaf (loc ++ k) = none) ↔
          ∀ k, k <+: q → t.leaf (loc ++ [c] ++ k) = none := by
        constructor
        · intro hfree k hk
          rw [List.append_assoc]
          exact hfree (c :: k) (List.cons_prefix_cons.mpr ⟨rfl,hk⟩)
        · intro hfree k hk
          cases k with
          | nil =>
            rw [List.append_nil]
            exact Node.leaf_of_dir hget
          | cons d k =>
            obtain ⟨rfl,hk'⟩ := List.cons_prefix_cons.mp hk
            have := hfree k hk'
            rwa [List.append_assoc] at this
      cases hn : t.get (loc ++ [c]) with
      | none =>
        dsimp only
        rw [if_neg (by decide),if_neg (by decide)]
        have hbelow (k : Loc) : t.leaf (loc ++ [c] ++ k) = none := by
          refine Node.leaf_of_none ?_
          rw [Node.get_append,hn]
          rfl
        cases hq : place ss with
        | none => simp
        | some q =>
          dsimp only
          constructor
          · rintro ⟨⟩
            exact ⟨c :: q,rfl,rfl,hcons.mpr fun k _ => hbelow k⟩
          · rintro ⟨q',hq',rfl,_⟩
            cases hq'
            rfl
      | some n =>
        cases n with
        | dir b bs =>
          dsimp only
          rw [h _ b bs hn,if_neg (by decide),ih ⟨b,bs,hn⟩]
          constructor
          · rintro ⟨q,hq,rfl,hfree⟩
            exact ⟨c :: q,by rw [hq]; rfl,by simp,hcons.mpr hfree⟩
          · rintro ⟨q',hq',rfl,hfree⟩
            obtain ⟨q,hq,rfl⟩ := Option.map_eq_some_iff.mp hq'
            exact ⟨q,hq,by simp,hcons.mp hfree⟩
        | file | symlink | special =>
          dsimp only
          refine iff_of_false (by simp) ?_
          rintro ⟨q',hq',_,hfree⟩
          obtain ⟨q,hq,rfl⟩ := Option.map_eq_some_iff.mp hq'
          have hleaf := hcons.mp hfree [] List.nil_prefix
          rw [List.append_nil,Node.leaf_of_get hn rfl] at hleaf
          cases hleaf

theorem parentOf_roomy (h : Roomy t) (ht : t.isDir = true) :
    parentOf true t p = .ok loc ↔
      place (split p).dropLast = some loc ∧ ∀ k, k <+: loc → t.leaf k = none := by
  obtain ⟨a,es,hroot⟩ := Node.eq_dir ht
  have hget : t.get [] = some (.dir a es) := by rw [hroot]; rfl
  have hmode : t.attr.mode = Session.dirMode := by
    rw [hroot]
    exact h [] a es hget
  rw [parentOf,hmode,if_neg (by decide),enterFrom_roomy h ⟨a,es,hget⟩]
  constructor
  · rintro ⟨q,hq,rfl,hfree⟩
    exact ⟨hq,hfree⟩
  · rintro ⟨hq,hfree⟩
    exact ⟨loc,hq,rfl,hfree⟩

/-- The names of a place are those of the components. -/
theorem nameOf_of_mem_place {ss : List Str} {q : Loc} {c : Name} (hq : place ss = some q)
    (hc : c ∈ q) : ∃ s ∈ ss, nameOf s = some c := by
  induction ss generalizing q with
  | nil =>
    cases hq
    cases hc
  | cons s ss ih =>
    rw [place,Option.bind_eq_some_iff] at hq
    obtain ⟨d,hd,hq⟩ := hq
    obtain ⟨q',hq',rfl⟩ := Option.map_eq_some_iff.mp hq
    rcases List.mem_cons.mp hc with rfl | hc
    · exact ⟨s,by simp,hd⟩
    · obtain ⟨s',hs,hname⟩ := ih hq' hc
      exact ⟨s',by simp [hs],hname⟩

theorem Clear.unguessed {env : Environment} (h : Clear env p) : Session.Unguessed env p := by
  intro c hc
  refine h _ ?_ c hc
  rw [Session.split_eq]
  simp

/-- No temporary file is on the way. -/
theorem Clear.notMem {env : Environment} {q : Loc} {c : Name} (h : Clear env p)
    (hq : place (split p).dropLast = some q) (hc : c ∈ q) : ¬TempName env c := by
  obtain ⟨s,hs,hname⟩ := nameOf_of_mem_place hq hc
  exact h s (List.dropLast_subset _ hs) c hname

end Trees

theorem digit_injective : Function.Injective Os.digit := by
  have h : ∀ a b : Fin 64, Os.digit a = Os.digit b → a = b := by decide +kernel
  exact fun a b => h a b

theorem hasSurrogate_tempName (digits : List (Fin 64)) :
    hasSurrogate (tempName digits) = false := by
  rw [hasSurrogate,List.any_eq_false]
  intro c hc hsur
  have hlt := ascii_tempName hc
  simp only [isSurrogate,decide_eq_true_eq] at hsur
  omega

/-- Different tokens make different names. -/
theorem tempName_injective {digits digits' : List (Fin 64)} {c : Name}
    (h : nameOf (tempName digits) = some c) (h' : nameOf (tempName digits') = some c) :
    digits = digits' := by
  have heq := fsencode_injective (hasSurrogate_tempName digits) (hasSurrogate_tempName digits')
    (nameOf_eq_some h).1 (nameOf_eq_some h').1
  exact List.map_injective_iff.mpr digit_injective (List.append_cancel_left heq)

/-- A path of short components is not that of a temporary file. -/
theorem clear_of_short {env : Environment} {p : Str}
    (h : ∀ s ∈ split p, hasSurrogate s = false ∧ s.length < tempPrefix.length) : Clear env p := by
  rintro s hs c hc ⟨n,hn⟩
  obtain ⟨hplain,hshort⟩ := h s hs
  have heq : s = tempName (env.random n) := fsencode_injective hplain (hasSurrogate_tempName _)
    (nameOf_eq_some hc).1 (nameOf_eq_some hn).1
  rw [heq,tempName,List.length_append] at hshort
  omega

namespace Session
variable {w : World} {q p : Str} {maxFileSize fd : ℕ} {content : Content}

theorem stageFile_later (q : Str) (content : Content) (maxSize : ℕ) :
    (stageFile rootDirectory maxSize q content).Within World.Later := by
  have htemp (fd : ℕ) : (writeFileToTemp fd content maxSize).Within World.Later :=
    fun w => (ends_writeFileToTemp_drawn fd content maxSize).1
  unfold stageFile normalize
  refine .bind (by split <;> first | exact .pure _ | exact .raise _) fun p => .bind (.handle ?_ ?_)
    fun _ => .pure _
  · rw [openParent_eq fun _ => rfl]
    exact (makeParent_later p).bind fun fd => .ensure ((htemp fd).bind fun _ => .pure _)
      (Os.close_later fd)
  · intro e
    split <;> exact .raise _

theorem commitStagedFile_later (p name : Str) :
    (commitStagedFile rootDirectory p name).Within World.Later := by
  unfold commitStagedFile
  rw [openParent_eq fun _ => rfl]
  exact (enterParent_later _ _).bind fun fd => .ensure (Os.replace_later _ _ _ _)
    (Os.close_later fd)

/-- The second half of `write_file`. -/
theorem commitOrDiscard_later (p name : Str) :
    ((commitStagedFile rootDirectory p name).handle fun exc => do
      suppressOSError (discardStagedFile rootDirectory p name)
      match exc with
      | .os _ (some .enospc) | .os _ (some .edquot) => .raise storageLimit
      | exc => .raise exc).Within World.Later := by
  refine (commitStagedFile_later p name).handle fun e => .bind ?_ fun _ => ?_
  · refine (discardStagedFile_later p name).handle fun e => ?_
    cases e <;> first | exact .pure _ | exact .raise _
  · split <;> exact .raise _

theorem writeFile_later (q : Str) (content : Content) (maxSize : ℕ) :
    (writeFile rootDirectory maxSize q content).Within World.Later :=
  (stageFile_later q content maxSize).bind fun ⟨p,name⟩ => commitOrDiscard_later p name

end Session

/-- The root and the directories on the way to the given ones. -/
def made (ds : List Loc) : Set Loc := {k | k = [] ∨ ∃ d ∈ ds, k <+: d}

theorem made_concat (ds : List Loc) (d : Loc) : made (ds ++ [d]) = made ds ∪ {k | k <+: d} := by
  ext k
  change (k = [] ∨ ∃ e ∈ ds ++ [d], k <+: e) ↔ (k = [] ∨ ∃ e ∈ ds, k <+: e) ∨ k <+: d
  simp only [List.mem_append,List.mem_singleton,or_and_right,exists_or,exists_eq_left,or_assoc]

namespace Session

/-- The directory of the path has this place, and no file is on the way. -/
def Way (files : Loc → Option Node) (p : Str) (loc : Loc) : Prop :=
  place (split p).dropLast = some loc ∧ ∀ k, k <+: loc → files k = none

/-- Why a body cannot be staged: there is no way to its path, or it cannot be read to its end. -/
inductive Refuses (maxFileSize : ℕ) (files : Loc → Option Node) (p : Str) (content : Content) :
    Exc AppError → Prop
  | blocked {b : Barrier} {e : Exc AppError} (h : ∀ loc, ¬Way files p loc) (he : b.Raises e) :
    Refuses maxFileSize files p content e
  | unread {loc : Loc} {e : Exc AppError} (h : Way files p loc)
    (he : content.reception maxFileSize = .error e) :
    Refuses maxFileSize files p content (stageError e)

/-- Why a body cannot be written where these directories are: it cannot be staged, nothing can have
the last name of its path, or a directory has it. -/
inductive Unwritable (maxFileSize : ℕ) (ds : List Loc) (files : Loc → Option Node) (p : Str)
    (content : Content) : Exc AppError → Prop
  | refused {e : Exc AppError} (h : Refuses maxFileSize files p content e) :
    Unwritable maxFileSize ds files p content e
  | badName {loc : Loc} {e : Exc AppError} (h : Way files p loc) (hfits : content.Fits maxFileSize)
    (hname : nameOf (lastPart p) = none) (he : IsBadName e) :
    Unwritable maxFileSize ds files p content e
  | isDirectory {loc k : Loc} (h : Way files p loc) (hfits : content.Fits maxFileSize)
    (hk : place (split p) = some k) (hdir : k ∈ made (ds ++ [loc])) :
    Unwritable maxFileSize ds files p content (Os.oserror .eisdir)

/-- The session has these directories, holds `files` and has the uploads waiting, and no name that
is drawn before the call `last` is taken. -/
structure Site (last : ℕ) (ds : List Loc) (files : Loc → Option Node) (us : List Upload)
    (w : World) : Prop where
  holds : Holds files us w
  dirs : w.root.dirs = made ds
  roomy : Roomy w.root
  untaken : ∀ n ∈ Set.Ico w.calls last, ∀ c loc, nameOf (tempName (w.env.random n)) = some c →
    w.root.get (loc ++ [c]) = none

theorem site_empty {w : World} {last : ℕ} {a : Attr} (hroot : w.root = .dir a [])
    (hmode : a.mode = dirMode) : Site last [] (fun _ => none) [] w := by
  have hget (c : Name) (loc : Loc) : w.root.get (c :: loc) = none := by
    rw [hroot]
    rfl
  have hleaf : w.root.leaf = fun _ => none := by
    funext loc
    cases loc with
    | nil =>
      rw [hroot]
      rfl
    | cons c loc => exact Node.leaf_of_none (hget c loc)
  refine ⟨⟨hleaf ▸ .nil _,by simp,by simp,by simp⟩,?_,fun loc b es hdir => ?_,fun n _ c loc _ => ?_⟩
  · ext loc
    change (∃ b es, w.root.get loc = some (.dir b es)) ↔ loc = [] ∨ ∃ d ∈ [], loc <+: d
    cases loc with
    | nil => simp [hroot]
    | cons c loc => simp [hget]
  · cases loc with
    | nil =>
      rw [hroot] at hdir
      cases hdir
      exact hmode
    | cons c loc =>
      rw [hget] at hdir
      cases hdir
  · cases loc with
    | nil => exact hget c []
    | cons d loc => exact hget d (loc ++ [c])

namespace Site
variable {w : World} {p : Str} {maxFileSize last : ℕ} {ds : List Loc} {files : Loc → Option Node}
  {us : List Upload} {u : Upload} {file : Str × Content} {loc : Loc}

theorem isDir (h : Site last ds files us w) : w.root.isDir = true := by
  have hmem : [] ∈ w.root.dirs := by
    rw [h.dirs]
    exact .inl rfl
  obtain ⟨a,es,hget⟩ := hmem
  have hroot : w.root = .dir a es := Option.some.inj hget
  rw [hroot]
  rfl

theorem quiet {v : World} (h : Site last ds files us w) (hv : w.Quiet v) (hlater : w.Later v) :
    Site last ds files us v := by
  refine ⟨h.holds.quiet hv,hv.root ▸ h.dirs,hv.root ▸ h.roomy,fun n hn c loc hc => ?_⟩
  rw [hv.root]
  exact h.untaken n ⟨hlater.calls.trans hn.1,hn.2⟩ c loc (hv.env ▸ hc)

/-- Nothing waits on the way to a path without temporary names. -/
theorem parentOf_iff (h : Site last ds files us w) (hclear : Clear w.env p) :
    parentOf true w.root p = .ok loc ↔ Way files p loc := by
  rw [parentOf_roomy h.roomy h.isDir]
  refine and_congr_right fun hplace => forall_congr' fun k => imp_congr_right fun hk => ?_
  constructor
  · exact fun hnone => (h.holds.pending.ne_of_free hnone).1
  · intro hnone
    rw [h.holds.pending.map_eq,written_other,hnone]
    intro e he heq
    obtain ⟨u,hu,rfl⟩ := List.mem_map.mp he
    have hmem : u.entry ∈ loc := hk.subset (by rw [← heq]; simp [Upload.temp])
    exact hclear.notMem hplace hmem (h.holds.drawn u hu)

theorem refuses {content : Content} {e : Exc AppError} (h : Site last ds files us w)
    (henv : Serene w.env last) (hclear : Clear w.env p)
    {v : World} (hlast : v.calls ≤ last)
    (he : Unstaged w.env (Set.Ico w.calls v.calls) maxFileSize content w.root p e) :
    Refuses maxFileSize files p content e := by
  cases he with
  | full hfault =>
    obtain ⟨call,n,hno⟩ := hfault
    exact absurd (henv.fault call n) hno
  | barrier hb he =>
    refine .blocked (fun loc hway => ?_) he
    rw [(h.parentOf_iff hclear).mpr hway] at hb
    cases hb
  | locked hloc hm =>
    have hleaf := ((parentOf_roomy h.roomy h.isDir).mp hloc).2 _ List.prefix_rfl
    rw [modeAt_roomy h.roomy hleaf] at hm
    exact absurd ⟨rfl,rfl⟩ hm
  | taken hloc ht =>
    obtain ⟨n,hn,c,hc,htaken⟩ := ht
    exact absurd (h.untaken n ⟨hn.1,hn.2.trans_le hlast⟩ c _ hc) htaken
  | unread hready he =>
    obtain ⟨loc,hloc,_⟩ := hready
    exact .unread ((h.parentOf_iff hclear).mp hloc) he

/-- The temporary file of an upload is all that it adds, beside the directories on the way. -/
theorem uploaded {name : Str} {fd : ℕ} {t v x : World} {m : ℕ} (h : Site last ds files us w)
    (henv : Serene w.env last) (hq : normalizeSubPath file.1 = .ok p) (hclear : Clear w.env p)
    (hup : Uploads maxFileSize p file.2 w fd name loc t v) (hroot : x.root = v.root)
    (hlater : w.Later x) (hlast : x.calls ≤ last) (hm : m < x.calls)
    (hname : name = tempName (w.env.random m)) :
    ∃ u, (p,name) = u.staged ∧ Carries file u ∧ Site last (ds ++ [loc]) files (us ++ [u]) x := by
  have hplace := hup.place
  obtain ⟨u,hu,hcarries,hholds⟩ := h.holds.uploads hq hclear.unguessed hup hroot hlater.env
  obtain ⟨c,b,hc,_,hleaf⟩ := hup.leaf
  have hdirs : x.root.dirs = w.root.dirs ∪ {k | k <+: loc} := by
    obtain ⟨a,es,hdir,_⟩ := hup.searchable
    rw [hroot,hup.temporary.dirs]
    exact hup.grown.dirs ⟨a,es,hdir⟩
  have hstays : Stays t.root x.root := by
    obtain ⟨d,_,es,b',_,hdir,_,hnone,_,hrel⟩ := hup.temporary.file
    exact hroot ▸ (hrel.added rfl (by rw [Node.get_entry hdir,hnone])).2
  refine ⟨u,hu,hcarries,hholds,?_,?_,fun n hn d k hd => ?_⟩
  · rw [hdirs,h.dirs,made_concat]
  · exact (h.roomy.grown hup.grown).stays hstays (hroot ▸ hup.temporary.dirs)
  · rw [hlater.env] at hd
    have hnone := h.untaken n ⟨hlater.calls.trans hn.1,hn.2⟩ d k hd
    refine Node.get_eq_none ?_ ?_
    · rw [hdirs]
      rintro (⟨a,es,hdir⟩ | hbelow)
      · rw [hnone] at hdir
        cases hdir
      · exact hclear.notMem hplace (List.IsPrefix.subset hbelow (by simp)) ⟨n,hd⟩
    · rw [hroot,hleaf,Function.update_of_ne (fun heq => ?_)]
      · exact Node.leaf_of_none hnone
      · cases (List.append_inj' heq rfl).2
        have heq : n = m := henv.distinct hn.2 (hm.trans_le hlast)
          (tempName_injective hd (hname ▸ hc))
        exact absurd hm (heq ▸ not_lt.mpr hn.1)

/-- A body is staged if there is a way to its path and it fits. -/
theorem stage (h : Site last ds files us w) (henv : Serene w.env last)
    (hq : normalizeSubPath file.1 = .ok p) (hclear : Clear w.env p)
    (hlast : (stageFile rootDirectory maxFileSize file.1 file.2 w).2.calls ≤ last) :
    (stageFile rootDirectory maxFileSize file.1 file.2).Ends w fun r x => x.env = w.env ∧
      match r with
      | .ok st => ∃ u loc, st = u.staged ∧ Carries file u ∧ Way files p loc ∧
          file.2.Fits maxFileSize ∧ Site last (ds ++ [loc]) files (us ++ [u]) x
      | .error e => Refuses maxFileSize files p file.2 e := by
  have huploads : (stageFile rootDirectory maxFileSize file.1 file.2).Ends w fun r x =>
      ∀ st, r = .ok st → ∃ fd name loc u v, st = (p,name) ∧
        Uploads maxFileSize p file.2 w fd name loc u v ∧ x.root = v.root ∧ w.Keeps w.nextFd x := by
    refine ends_stageFile hq (fun e v _ _ st hst => by cases hst)
      (fun e v _ _ _ st hst => by cases hst)
      (fun fd name loc u v e x _ _ _ _ st hst => by cases hst) ?_
    rintro fd name loc u v x hup - hroot hk st ⟨⟩
    exact ⟨fd,name,loc,u,v,rfl,hup,hroot,hk⟩
  have hbefore : (stageFile rootDirectory maxFileSize file.1 file.2).Ends w fun _ x =>
      x.calls ≤ last := hlast
  have hresult := (ends_stageFile_any henv.steady henv.drawn h.isDir hq).and huploads
  refine (hresult.and hbefore).mono ?_
  rintro r x ⟨⟨⟨hlater,hr⟩,hup⟩,hlast⟩
  refine ⟨hlater.env,?_⟩
  cases r with
  | error e => exact h.refuses henv hclear hlast hr
  | ok st =>
    obtain ⟨fd,name,loc,t,v,rfl,hup,hroot,_⟩ := hup st rfl
    obtain ⟨⟨loc',hloc,_⟩,hfits,m,hm,hname⟩ := hr
    have hway := (h.parentOf_iff hclear).mp hloc
    cases hup.place.symm.trans hway.1
    obtain ⟨u,hu,hcarries,hsite⟩ := h.uploaded henv hq hclear hup hroot hlater hlast hm.2 hname
    exact ⟨u,loc,hu,hcarries,hway,hfits,hsite⟩

/-- Committing fails on a name that no file can have and on a directory. -/
theorem commit (h : Site last ds files (u :: us) w) (henv : Serene w.env last) :
    (commitStagedFile rootDirectory u.path u.name).Ends w fun r v => v.env = w.env ∧ match r with
      | .ok _ => ∃ k, place (split u.path) = some k ∧ k ∉ made ds ∧
          Site last ds (Function.update files k (some u.node)) us v
      | .error e => nameOf (lastPart u.path) = none ∧ IsBadName e ∨
          e = Os.oserror .eisdir ∧ ∃ k, place (split u.path) = some k ∧ k ∈ made ds := by
  have hwait := h.holds.waiting u List.mem_cons_self
  have hun := h.holds.unguessed u List.mem_cons_self
  have hreveals : (commitStagedFile rootDirectory u.path u.name).Ends w fun r v => r = .ok () →
      ∃ d fd t x, Reveals u.path u.name u.loc u.entry d u.node w fd t x ∧ v.root = x.root := by
    refine ends_commitStagedFile hwait (fun e v _ _ hr => by cases hr)
      (fun d fd t x e v _ _ _ _ hr => by cases hr) ?_
    exact fun d fd t x v hrev _ hroot _ _ => ⟨d,fd,t,x,hrev,hroot⟩
  refine Program.Ends.mono (Program.Ends.within (Program.Ends.and
    (ends_commitStagedFile_any henv.steady hwait) hreveals) (commitStagedFile_later _ _)) ?_
  rintro r v ⟨hlater,hr,hrev⟩
  refine ⟨hlater.env,?_⟩
  cases r with
  | error e =>
    obtain ⟨_,_,he⟩ := hr
    cases he with
    | full hfull =>
      obtain ⟨⟨call,n,hno⟩,_⟩ := hfull
      exact absurd (henv.fault call n) hno
    | badName hname he => exact .inl ⟨hname,he⟩
    | @isDirectory d hname hdir =>
      refine .inr ⟨rfl,u.loc ++ [d],?_,h.dirs ▸ hdir⟩
      rw [split_eq,place_append,hwait.place,hname]
      rfl
  | ok =>
    obtain ⟨d,fd,t,x,hrev,hroot⟩ := hrev rfl
    have hren := hrev.renamed
    rw [← hroot] at hren
    refine ⟨u.loc ++ [d],hrev.place,fun hmem => ?_,(h.holds.revealed hrev.nameOf hren hlater.env).1,
      hren.dirs.trans h.dirs,h.roomy.stays hren.stays hren.dirs,fun n hn c k hc => ?_⟩
    · rw [← h.dirs] at hmem
      obtain ⟨a,es,hdir⟩ := hmem
      cases hren.replaced _ hdir
    · rw [hlater.env] at hc
      have hnone := h.untaken n ⟨hlater.calls.trans hn.1,hn.2⟩ c k hc
      refine Node.get_eq_none ?_ ?_
      · rw [hren.dirs]
        rintro ⟨a,es,hdir⟩
        rw [hnone] at hdir
        cases hdir
      · rw [hren.leaf,Function.update_of_ne (fun heq => ?_)]
        · by_cases hold : k ++ [c] = u.loc ++ [u.entry]
          · rw [hold,Function.update_self]
          · rw [Function.update_of_ne hold]
            exact Node.leaf_of_none hnone
        · cases (List.append_inj' heq rfl).2
          exact hun d hrev.nameOf ⟨n,hc⟩

theorem write (h : Site last ds files [] w) (henv : Serene w.env last)
    (hq : normalizeSubPath file.1 = .ok p) (hclear : Clear w.env p)
    (hlast : (writeFile rootDirectory maxFileSize file.1 file.2 w).2.calls ≤ last) :
    (writeFile rootDirectory maxFileSize file.1 file.2).Ends w fun r v => v.env = w.env ∧
      match r with
      | .ok _ => ∃ loc k b, Way files p loc ∧ file.2.Fits maxFileSize ∧ place (split p) = some k ∧
          k ∉ made (ds ++ [loc]) ∧
          Site last (ds ++ [loc]) (Function.update files k (some (.file b file.2.body))) [] v
      | .error e => Unwritable maxFileSize ds files p file.2 e := by
  have hstaged := (World.later_bind (fun ⟨p,name⟩ => commitOrDiscard_later p name) w).calls.trans
    hlast
  unfold writeFile
  refine Program.Ends.bind (h.stage henv hq hclear hstaged) ?_ fun e v hv => ⟨hv.1,.refused hv.2⟩
  rintro _ x ⟨hx,u,loc,rfl,hcarries,hway,hfits,hsite⟩
  obtain ⟨hq',b,hb⟩ := hcarries
  cases hq.symm.trans hq'
  have hwait := hsite.holds.waiting u (by simp)
  refine Program.Ends.handle (hsite.commit (hx ▸ henv)) ?_ fun e v hv => ?_
  · rintro _ v ⟨hv,k,hk,hnot,hdone⟩
    exact ⟨hv.trans hx,loc,k,b,hway,hfits,hk,hnot,hb ▸ hdone⟩
  -- whatever became of the staged file, the failure of the commit is raised again
  obtain ⟨hv,he⟩ := hv
  have hdiscard := ends_suppressOSError (P := fun y => v.Later y)
    (discardStagedFile_later u.path u.name v)
    (discardStagedFile_raises hwait.normalised hwait.place hwait.component hwait.nameOf)
  refine Program.Ends.bind hdiscard (fun _ y hy => ?_) fun e y hy => by cases hy.1
  have henv' : y.env = w.env := hy.2.env.trans (hv.trans hx)
  have hun : Unwritable maxFileSize ds files u.path file.2 e := by
    rcases he with ⟨hname,he⟩ | ⟨rfl,k,hk,hdir⟩
    · exact .badName hway hfits hname he
    · exact .isDirectory hway hfits hk hdir
  rcases he with ⟨_,rfl | rfl⟩ | ⟨rfl,_⟩ <;> exact ⟨henv',hun⟩

end Site
end Session
end CodeExecutorApi
