import Mathlib.Data.Set.BooleanAlgebra
import Mathlib.Order.CompletePartialOrder
import CodeExecutorApi.Machine.Growth
import CodeExecutorApi.Sessions.Pending

/-! Which directories the file operations of a session make. None of them removes one. -/
namespace CodeExecutorApi
open Python Posix Machine

theorem Strayed.dirs {env : Environment} {loc : Loc} {t t' : Node} (h : Strayed env loc t t') :
    t'.dirs = t.dirs := by
  obtain ⟨n,c,b,body,_,hnone,hrel⟩ := h
  refine hrel.dirs (fun n hn => ?_) fun n hn => ?_
  · cases hnone.symm.trans hn
  · cases hn
    rfl

theorem Temporary.dirs {loc : Loc} {name : Str} {body : Bytes} {t t' : Node} (h : Temporary loc name body t t') :
    t'.dirs = t.dirs := by
  obtain ⟨c,a,es,b,_,hdir,_,hnone,_,hrel⟩ := h.file
  refine hrel.dirs (fun n hn => ?_) fun n hn => ?_
  · rw [Node.get_entry hdir,hnone] at hn
    cases hn
  · cases hn
    rfl

namespace Session

/-- The directory that `fd` stands for has no entry `s` and can get one. -/
def Makeable (s : Str) (fd : ℕ) (w : World) : Prop :=
  ∃ loc a es c, w.locOf fd = .ok loc ∧ w.root.get loc = some (.dir a es) ∧ a.mode.search = true ∧
    a.mode.write = true ∧ nameOf s = some c ∧ es.lookup c = none ∧
    w.env.fault .mkdir w.calls = none

/-- The walk through `parts` from `fd` on comes to a directory to make. -/
def WalkMakes : ℕ → List Str → World → Prop
  | _, [], _ => False
  | fd, s :: parts, w => Makeable s fd w ∨
      ∃ fd' v, openPart true fd s w = (.ok fd',v) ∧ WalkMakes fd' parts v

/-- The walk of `stage_file` to the directory of its path does. -/
def StagingMakes (q : Str) (w : World) : Prop :=
  ∃ p fd v, normalizeSubPath q = .ok p ∧
    (Os.open_ rootDirectory dirFlags dirMode none : Api ℕ) w = (.ok fd,v) ∧
    WalkMakes fd (split p).dropLast v

section
variable {w : World} {fd : ℕ} {loc : Loc} {a : Attr} {es : List (Name × Node)} {s q p name : Str}

theorem makeable_iff (hfd : w.Has fd loc) (hdir : w.root.get loc = some (.dir a es)) :
    Makeable s fd w ↔ a.mode.search = true ∧ a.mode.write = true ∧
      (∃ c, nameOf s = some c ∧ es.lookup c = none) ∧ w.env.fault .mkdir w.calls = none := by
  constructor
  · rintro ⟨loc',a',es',c,hloc,hdir',hsearch,hwrite,hc,hnone,hfault⟩
    cases hfd.locOf.symm.trans hloc
    cases hdir.symm.trans hdir'
    exact ⟨hsearch,hwrite,⟨c,hc,hnone⟩,hfault⟩
  · rintro ⟨hsearch,hwrite,⟨c,hc,hnone⟩,hfault⟩
    exact ⟨loc,a,es,c,hfd.locOf,hdir,hsearch,hwrite,hc,hnone,hfault⟩

/-- `mkdir` makes a directory if it can. -/
theorem mkdir_climbs (hs : Component s) (hfd : w.Has fd loc)
    (hdir : w.root.get loc = some (.dir a es)) :
    (Os.mkdir s dirMode fd : Api Unit).Ends w fun _ v =>
      Climbs (Makeable s fd w) w.root.dirs v.root.dirs := by
  have hmakeable := makeable_iff (s := s) hfd hdir
  have hrest {v : World} (hv : w.Quiet v) (hno : ¬Makeable s fd w) :
      Climbs (Makeable s fd w) w.root.dirs v.root.dirs := .rest (by rw [hv.root]) hno
  refine Os.ends_entry hs hfd hdir (fun e v hv hwhy => hrest hv fun hmake => ?_)
    fun c hc hsearch => ?_
  · obtain ⟨hsearch,_,⟨c,hc,_⟩,_⟩ := hmakeable.mp hmake
    rcases hwhy with hnone | hno
    · cases hc.symm.trans hnone
    · cases hsearch.symm.trans hno
  have hget := Node.get_entry hdir c
  cases hfault : w.env.fault .mkdir w.calls with
  | some e =>
    refine Os.ends_fault hfault (hrest (World.quiet_tick w) fun hmake => ?_)
    obtain ⟨_,_,_,hnone⟩ := hmakeable.mp hmake
    cases hnone.symm.trans hfault
  | none =>
    refine Os.ends_syscall (fun e he => hrest (World.quiet_tick w) fun hmake => ?_)
      (fun e he => hrest (World.quiet_tick w) fun hmake => ?_) fun _ v hv => ?_
    · cases hfault.symm.trans he
    · obtain ⟨_,hwrite,⟨d,hd,hnone⟩,_⟩ := hmakeable.mp hmake
      cases hc.symm.trans hd
      rw [World.mkdirLoc,hget,hnone,Os.writable_entry hdir,if_pos hwrite] at he
      cases he
    · rw [World.mkdirLoc,hget,Os.writable_entry hdir] at hv
      cases hn : es.lookup c with
      | some n =>
        rw [hn] at hv
        cases hv
      | none =>
        rw [hn] at hv
        split_ifs at hv with hwrite
        · cases hv
          refine .strict ((World.link_relinked hdir _).dirs_ssubset (hget.trans hn)) ?_
          exact hmakeable.mpr ⟨hsearch,hwrite,⟨c,hc,hn⟩,hfault⟩
        · cases hv

/-- An entry that is there already is left alone. -/
theorem mkdirIfMissing_climbs (hs : Component s) (hfd : w.Has fd loc)
    (hdir : w.root.get loc = some (.dir a es)) :
    (mkdirIfMissing s fd).Ends w fun _ v =>
      Climbs (Makeable s fd w) w.root.dirs v.root.dirs := by
  refine Program.Ends.handle (mkdir_climbs hs hfd hdir) (fun _ v h => h) fun e v h => ?_
  cases e with
  | os cls errno => cases cls <;> exact h
  | valueError | unicodeEncodeError | cancelled | app => exact h

/-- A turn of the walk. -/
theorem enterPart_climbs (hs : Component s) (hfd : w.Has fd loc) (henter : Enterable w.root loc) :
    ((openPart true fd s).onError (Os.close fd)).Ends w fun _ v =>
      Climbs (Makeable s fd w) w.root.dirs v.root.dirs := by
  obtain ⟨a,es,hdir,_⟩ := henter.dir
  have hmkdir : (mkdirIfMissing s fd).Ends w fun r v =>
      Climbs (Makeable s fd w) w.root.dirs v.root.dirs ∧
        (r = .ok () → v.Has fd loc ∧ Enterable v.root loc) := by
    refine ⟨mkdirIfMissing_climbs hs hfd hdir,?_⟩
    exact ends_mkdirIfMissing hs hfd hdir (Q := fun r v => r = .ok () →
      v.Has fd loc ∧ Enterable v.root loc) (fun e v _ => nofun)
      fun v hg hk _ => ⟨hk.has hfd,hg.stays.enterable henter⟩
  refine Program.ends_onError.mpr (Program.Ends.mono (Q := fun _ v =>
    Climbs (Makeable s fd w) w.root.dirs v.root.dirs) ?_ fun r v h => ?_)
  · change Program.Ends (mkdirIfMissing s fd >>= fun _ => openPart false fd s) w _
    refine Program.Ends.bind hmkdir (fun _ v h => ?_) fun e v h => h.1
    obtain ⟨hclimbs,hgo⟩ := h
    obtain ⟨hfd',henter'⟩ := hgo rfl
    have hturn : (openPart false fd s).Ends v (Turned false s fd loc v) :=
      ends_turn hs hfd' henter' (.of_root rfl) (.refl _ _)
    refine hturn.mono fun r u hu => hclimbs.level ?_
    cases r with
    | ok fd' =>
      obtain ⟨c,_,hwalked,_⟩ := hu
      exact congrArg Node.dirs (hwalked.made rfl)
    | error e => exact congrArg Node.dirs (hu.1.made rfl)
  · cases r with
    | ok fd' => exact h
    | error e =>
      refine Os.ends_close_any fun r x hx => ?_
      have hx := h.level (congrArg Node.dirs hx.root)
      cases r <;> exact hx

/-- What a walk makes, it keeps, however it ends. -/
theorem enterParts_climbs {parts : List Str} (hparts : ∀ s ∈ parts, Component s)
    (hfd : w.Has fd loc) (henter : Enterable w.root loc) :
    (enterParts true fd parts).Ends w fun _ v =>
      Climbs (WalkMakes fd parts w) w.root.dirs v.root.dirs := by
  induction parts generalizing w fd loc with
  | nil => exact .rest rfl fun h => h
  | cons s parts ih =>
    have hs := hparts s List.mem_cons_self
    have hturn : ((openPart true fd s).onError (Os.close fd)).Ends w (Turned true s fd loc w) :=
      ends_enterPart hs hfd henter
    have hclimbs := enterPart_climbs hs hfd henter
    rcases hrun : (openPart true fd s).onError (Os.close fd) w with ⟨e | fd',v⟩ <;>
      rw [Program.ends_of_run hrun] at hturn hclimbs
    · refine (Program.ends_of_run (Program.bind_run_error hrun)).mpr (hclimbs.congr ?_)
      refine (or_iff_left ?_).symm
      rintro ⟨fd',v',hrun',_⟩
      rw [Program.onError_run_ok.mpr hrun'] at hrun
      cases hrun
    · obtain ⟨c,_,_,henter',_,_,hfd'⟩ := hturn
      have hrest := ih (fun s hs => hparts s (List.mem_cons_of_mem _ hs)) hfd' henter'
      have hsame : enterParts true fd (s :: parts) w = enterParts true fd' parts v :=
        Program.bind_run hrun
      unfold Program.Ends
      rw [hsame]
      refine (hclimbs.trans hrest).congr (or_congr_right ⟨fun h => ?_,?_⟩)
      · exact ⟨fd',v,Program.onError_run_ok.mp hrun,h⟩
      · rintro ⟨fd'',v',hrun',h⟩
        rw [Program.onError_run_ok.mpr hrun'] at hrun
        cases hrun
        exact h

theorem enterParent_climbs (hq : normalizeSubPath q = .ok p) :
    (enterParent rootDirectory p true).Ends w fun _ v =>
      Climbs (StagingMakes q w) w.root.dirs v.root.dirs := by
  have hp := normalizeSubPath_normalised hq
  have hopen : (Os.open_ rootDirectory dirFlags dirMode none : Api ℕ).Ends w fun r v =>
      v.root = w.root ∧ ∀ fd, r = .ok fd → v.Has fd [] ∧ Enterable v.root [] := by
    refine ends_openWork (fun e v hv => ⟨hv.root,nofun⟩) fun v hv hroot henter => ⟨hroot,?_⟩
    rintro fd ⟨⟩
    exact ⟨hv.has,hroot ▸ henter⟩
  rcases hrun : (Os.open_ rootDirectory dirFlags dirMode none : Api ℕ) w with ⟨e | fd,v⟩ <;>
    obtain ⟨hroot,hgo⟩ := (Program.ends_of_run hrun).mp hopen
  · refine (Program.ends_of_run (Program.bind_run_error hrun)).mpr (.rest (by rw [hroot]) ?_)
    rintro ⟨p',fd,v',_,hrun',_⟩
    cases hrun.symm.trans hrun'
  · obtain ⟨hfd,henter⟩ := hgo fd rfl
    have hwalk := enterParts_climbs (fun s hs => component_of_mem hp (List.dropLast_subset _ hs))
      hfd henter
    have hsame : enterParent rootDirectory p true w = enterParts true fd (split p).dropLast v :=
      Program.bind_run hrun
    unfold Program.Ends
    rw [hsame,← hroot]
    refine Climbs.congr hwalk ⟨fun h => ⟨p,fd,v,hq,hrun,h⟩,?_⟩
    rintro ⟨p',fd',v',hq',hrun',h⟩
    cases hq.symm.trans hq'
    cases hrun.symm.trans hrun'
    exact h

/-- Only the walk of `stage_file` makes directories. -/
theorem stageFile_climbs (maxFileSize : ℕ) (content : Content) :
    (stageFile rootDirectory maxFileSize q content).Ends w fun _ v =>
      Climbs (StagingMakes q w) w.root.dirs v.root.dirs := by
  cases hq : normalizeSubPath q with
  | error e =>
    unfold stageFile normalize
    rw [hq]
    refine .rest rfl ?_
    rintro ⟨p,_,_,hq',_⟩
    cases hq.symm.trans hq'
  | ok p =>
    have hp := normalizeSubPath_normalised hq
    unfold stageFile
    rw [normalize_eq hq,Program.pure_bind]
    refine Program.Ends.bind (R := fun _ v => Climbs (StagingMakes q w) w.root.dirs v.root.dirs) ?_
      (fun _ v h => h) fun e v h => h
    refine Program.Ends.handle (R := fun _ v => Climbs (StagingMakes q w) w.root.dirs v.root.dirs) ?_
      (fun _ v h => h) fun e v h => ?_
    · rw [openParent_eq fun _ => rfl]
      have hwalk : (enterParent rootDirectory p true).Ends w fun r u =>
          Climbs (StagingMakes q w) w.root.dirs u.root.dirs ∧
            ∀ fd, r = .ok fd → ∃ loc a es, u.Has fd loc ∧ u.root.get loc = some (.dir a es) := by
        refine ⟨enterParent_climbs hq,?_⟩
        refine ends_enterParent (Q := fun r u => ∀ fd, r = .ok fd → ∃ loc a es, u.Has fd loc ∧
          u.root.get loc = some (.dir a es)) hp (fun e v _ _ => nofun) ?_
        rintro fd loc u _ _ henter _ _ hhas _ ⟨⟩
        obtain ⟨a,es,hdir,_⟩ := henter.dir
        exact ⟨loc,a,es,hhas,hdir⟩
      refine Program.Ends.bind hwalk ?_ fun e u h => h.1
      rintro fd u ⟨hclimbs,hgo⟩
      obtain ⟨loc,a,es,hhas,hdir⟩ := hgo fd rfl
      refine Program.ends_ensure.mpr (Program.Ends.mono (Q := fun _ v =>
        Climbs (StagingMakes q w) w.root.dirs v.root.dirs) ?_ fun r v h => ?_)
      · refine Program.Ends.bind (R := fun _ v => v.root.dirs = u.root.dirs)
          (ends_writeFileToTemp hhas hdir (fun e v htouched _ => htouched.dirs)
            (fun e v _ hstrayed _ => hstrayed.dirs) fun n v _ htemp _ _ => htemp.dirs)
          (fun _ v hv => hclimbs.level hv) fun e v hv => hclimbs.level hv
      · refine Os.ends_close_any fun r' x hx => ?_
        have hx := h.level (congrArg Node.dirs hx.root)
        cases r' <;> exact hx
    · split <;> exact h

/-- The temporary file of an entry of the staged list is there. -/
structure Waits (st : Str × Str) (t : Node) : Prop where
  normalised : Normalised st.1
  component : Component st.2
  leaf : ∃ loc c n, place (split st.1).dropLast = some loc ∧ nameOf st.2 = some c ∧
    t.leaf (loc ++ [c]) = some n

/-- No directory is where that file would be. -/
structure Hidden (st : Str × Str) (t : Node) : Prop where
  normalised : Normalised st.1
  component : Component st.2
  notMem : ∀ loc c, place (split st.1).dropLast = some loc → nameOf st.2 = some c →
    loc ++ [c] ∉ t.dirs

theorem Waits.hidden {st : Str × Str} {t : Node} (h : Waits st t) : Hidden st t := by
  obtain ⟨loc,c,n,hloc,hc,hleaf⟩ := h.leaf
  refine ⟨h.normalised,h.component,fun loc' c' hloc' hc' ⟨a,es,hdir⟩ => ?_⟩
  cases hloc.symm.trans hloc'
  cases hc.symm.trans hc'
  rw [Node.leaf_of_dir hdir] at hleaf
  cases hleaf

/-- Staging takes no file away. -/
theorem stageFile_waits (maxFileSize : ℕ) (content : Content) :
    (stageFile rootDirectory maxFileSize q content).Ends w fun r v =>
      (∀ k n, w.root.leaf k = some n → v.root.leaf k = some n) ∧
        ∀ st, r = .ok st → Waits st v.root := by
  have hadded {v : World} {loc : Loc} {c : Name} {o : Option Node}
      (hnone : w.root.leaf (loc ++ [c]) = none)
      (hleaf : v.root.leaf = Function.update w.root.leaf (loc ++ [c]) o) :
      ∀ k n, w.root.leaf k = some n → v.root.leaf k = some n := by
    intro k n hn
    rw [hleaf,Function.update_of_ne (fun hk => ?_),hn]
    rw [hk,hnone] at hn
    cases hn
  have huploads {fd : ℕ} {p name : Str} {loc : Loc} {u v : World}
      (hup : Uploads maxFileSize p content w fd name loc u v) :
      (∀ k n, w.root.leaf k = some n → v.root.leaf k = some n) ∧
        (Normalised p → Waits (p,name) v.root) := by
    obtain ⟨c,b,hc,hnone,hleaf⟩ := hup.leaf
    refine ⟨hadded hnone hleaf,fun hp => ⟨hp,hup.temporary.component,loc,c,.file b content.body,
      hup.place,hc,?_⟩⟩
    rw [hleaf,Function.update_self]
  cases hq : normalizeSubPath q with
  | error e =>
    unfold stageFile normalize
    rw [hq]
    exact ⟨fun _ _ h => h,nofun⟩
  | ok p =>
    refine ends_stageFile hq (fun e v hg _ => ⟨?_,nofun⟩) (fun e v _ hlitters _ => ⟨?_,nofun⟩) ?_ ?_
    · intro k n hn
      rw [hg.leaf]
      exact hn
    · obtain ⟨loc,t,_,hg,n,c,b,body,_,hnone,hrel⟩ := hlitters
      obtain ⟨hleaf,_⟩ := hrel.added rfl hnone
      rw [hg.leaf] at hleaf
      refine hadded ?_ hleaf
      rw [← hg.leaf]
      exact Node.leaf_of_none hnone
    · exact fun fd name loc u v e x hup _ hroot _ => ⟨hroot ▸ (huploads hup).1,nofun⟩
    · rintro fd name loc u v x hup _ hroot _
      refine ⟨hroot ▸ (huploads hup).1,?_⟩
      rintro st ⟨⟩
      exact hroot ▸ (huploads hup).2 (normalizeSubPath_normalised hq)

/-- A file that cannot be found is not renamed. -/
theorem ends_replace_missing {Q : Except (Exc AppError) Unit → World → Prop} {s' : Str}
    (hs : Component s) (hs' : Component s') (hfd : w.Has fd loc)
    (hdir : w.root.get loc = some (.dir a es))
    (hmissing : ∀ c, nameOf s = some c → es.lookup c = none) (hfail : Os.Fails Q w) :
    (Os.replace s s' fd fd : Api Unit).Ends w Q := by
  unfold Os.replace
  rcases Os.path_component (ε := AppError) hs with ⟨_,hpath⟩ | ⟨b,hb,hpath⟩
  · rw [hpath,Program.raise_bind]
    exact hfail _ _ (.refl w)
  rw [hpath,Program.pure_bind]
  rcases Os.path_component (ε := AppError) hs' with ⟨_,hpath'⟩ | ⟨b',hb',hpath'⟩
  · rw [hpath',Program.raise_bind]
    exact hfail _ _ (.refl w)
  rw [hpath',Program.pure_bind]
  refine Os.ends_syscall (fun e _ => hfail _ _ (World.quiet_tick w))
    (fun e _ => hfail _ _ (World.quiet_tick w)) fun u v hv => ?_
  rw [World.renameAt] at hv
  cases hsearch : a.mode.search with
  | false =>
    obtain ⟨e,he⟩ := Os.resolving_refused (f := fun old =>
      World.resolving false (some fd) b' fun new => World.renameLoc old new) hs hb hfd hdir hsearch
    cases he.symm.trans hv
  | true =>
    rw [Os.resolving_entry hs hb hfd hdir hsearch] at hv
    cases hc : nameOf s with
    | none =>
      rw [hc] at hv
      cases hv
    | some c =>
      rw [hc] at hv
      dsimp only at hv
      rw [Os.resolving_entry hs' hb' hfd hdir hsearch] at hv
      cases hd : nameOf s' with
      | none =>
        rw [hd] at hv
        cases hv
      | some d =>
        rw [hd] at hv
        dsimp only at hv
        rw [World.renameLoc,Node.get_entry hdir,hmissing c hc] at hv
        cases hv

/-- A rename of what is no directory keeps the directories. -/
theorem replace_dirs {s' : Str} (hs : Component s) (hs' : Component s') (hfd : w.Has fd loc)
    (hdir : w.root.get loc = some (.dir a es))
    (hfile : ∀ c, nameOf s = some c → loc ++ [c] ∉ w.root.dirs) :
    (Os.replace s s' fd fd : Api Unit).Ends w fun _ v => v.root.dirs = w.root.dirs := by
  by_cases hmissing : ∀ c, nameOf s = some c → es.lookup c = none
  · exact ends_replace_missing hs hs' hfd hdir hmissing fun e v hv => by rw [hv.root]
  · obtain ⟨c,hmissing⟩ := not_forall.mp hmissing
    obtain ⟨hc,hne⟩ := Classical.not_imp.mp hmissing
    obtain ⟨n,hn⟩ := Option.ne_none_iff_exists'.mp hne
    have hfile : n.isDir = false := by
      cases n with
      | dir b bs => exact absurd ⟨b,bs,(Node.get_entry hdir c).trans hn⟩ (hfile c hc)
      | file | symlink | special => rfl
    exact Os.ends_replace hs hs' hfd hdir hc hn hfile (fun e v hv => by rw [hv.root])
      fun d v _ hren _ => hren.dirs

/-- A walk that makes nothing, and then something that keeps the directories. -/
theorem openParent_dirs {body : ℕ → Str → Api Unit} (hp : Normalised p)
    (hbody : ∀ fd loc a es u, place (split p).dropLast = some loc → u.root = w.root →
      u.Has fd loc → u.root.get loc = some (.dir a es) →
      (body fd (lastPart p)).Ends u fun _ v => v.root.dirs = u.root.dirs) :
    (openParent rootDirectory p false body).Ends w fun _ v => v.root.dirs = w.root.dirs := by
  rw [openParent_eq fun _ => rfl]
  refine Program.Ends.bind (ends_enterParent hp (Q := fun r u => u.root = w.root ∧
    ∀ fd, r = .ok fd → ∃ loc a es, place (split p).dropLast = some loc ∧ u.Has fd loc ∧
      u.root.get loc = some (.dir a es)) ?_ ?_) ?_ fun e u h => by rw [h.1]
  · exact fun e v hw _ => ⟨hw.made rfl,nofun⟩
  · rintro fd loc v hloc hw henter _ _ hhas
    refine ⟨hw.made rfl,?_⟩
    rintro _ ⟨⟩
    obtain ⟨a,es,hdir,_⟩ := henter.dir
    exact ⟨loc,a,es,hloc,hhas,hdir⟩
  · rintro fd u ⟨hroot,hgo⟩
    obtain ⟨loc,a,es,hloc,hhas,hdir⟩ := hgo fd rfl
    refine Program.ends_ensure.mpr ((hbody fd loc a es u hloc hroot hhas hdir).mono
      fun r v hv => ?_)
    refine Os.ends_close_any fun r' x hx => ?_
    have hx : x.root.dirs = w.root.dirs := by rw [hx.root,hv,hroot]
    cases r' <;> exact hx

theorem commitStagedFile_dirs {st : Str × Str} (h : Hidden st w.root) :
    (commitStagedFile rootDirectory st.1 st.2).Ends w fun _ v => v.root.dirs = w.root.dirs := by
  refine openParent_dirs h.normalised fun fd loc a es u hloc hroot hhas hdir => ?_
  refine replace_dirs h.component (component_lastPart h.normalised) hhas hdir fun c hc => ?_
  rw [hroot]
  exact h.notMem loc c hloc hc

theorem discardStagedFile_dirs {st : Str × Str} (h : Hidden st w.root) :
    (discardStagedFile rootDirectory st.1 st.2).Ends w fun _ v => v.root.dirs = w.root.dirs := by
  refine openParent_dirs h.normalised fun fd loc a es u _ _ hhas hdir => ?_
  refine Program.Ends.handle (R := fun _ v => v.root.dirs = u.root.dirs) ?_ (fun _ v h => h)
    fun e v hv => ?_
  · refine Os.ends_unlink h.component hhas hdir (fun e v hv _ => by rw [hv.root]) ?_
    intro c n v _ hn hfile hv
    refine hv.tree.dirs (fun m hm => ?_) nofun
    rw [Node.get_entry hdir,hn] at hm
    cases hm
    exact hfile
  · cases e with
    | os cls errno => cases cls <;> exact hv
    | valueError | unicodeEncodeError | cancelled | app => exact hv

theorem Hidden.of_dirs {st : Str × Str} {t t' : Node} (h : Hidden st t) (ht : t'.dirs = t.dirs) :
    Hidden st t' := ⟨h.normalised,h.component,ht ▸ h.notMem⟩

theorem suppressOSError_dirs {x : Api Unit} (hx : x.Ends w fun _ v => v.root.dirs = w.root.dirs) :
    (suppressOSError x).Ends w fun _ v => v.root.dirs = w.root.dirs := by
  refine Program.Ends.handle hx (fun _ v h => h) fun e v h => ?_
  cases e <;> exact h

/-- `write_file` makes the directories that `stage_file` makes. -/
theorem writeFile_climbs (maxFileSize : ℕ) (content : Content) :
    (writeFile rootDirectory maxFileSize q content).Ends w fun _ v =>
      Climbs (StagingMakes q w) w.root.dirs v.root.dirs := by
  have hstage : (stageFile rootDirectory maxFileSize q content).Ends w fun r v =>
      Climbs (StagingMakes q w) w.root.dirs v.root.dirs ∧ ∀ st, r = .ok st → Hidden st v.root :=
    ⟨stageFile_climbs maxFileSize content,
      fun st hst => ((stageFile_waits maxFileSize content).2 st hst).hidden⟩
  refine Program.Ends.bind hstage ?_ fun e v h => h.1
  rintro ⟨path,temporary⟩ v ⟨hclimbs,hgo⟩
  have hhidden := hgo _ rfl
  refine Program.Ends.handle (commitStagedFile_dirs hhidden) (fun _ u hu => hclimbs.level hu)
    fun e u hu => ?_
  have hdiscard := suppressOSError_dirs (discardStagedFile_dirs (hhidden.of_dirs hu))
  refine Program.Ends.bind hdiscard (fun _ x hx => ?_) fun e x hx => hclimbs.level (hx.trans hu)
  split <;> exact hclimbs.level (hx.trans hu)

end
end Session
end CodeExecutorApi
