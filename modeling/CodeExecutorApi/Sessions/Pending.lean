import CodeExecutorApi.Machine.Staging
import CodeExecutorApi.Sessions.Atomicity

/-! Files that were staged and wait to be committed or discarded, in any number and in directories
that they may share. -/
namespace CodeExecutorApi
open Python Posix Machine

/-- The name of a temporary file. -/
def TempName (env : Environment) (c : Name) : Prop :=
  ∃ n, nameOf (tempPrefix ++ (env.random n).map Os.digit) = some c

namespace Session

/-- A path is not that of a temporary file: nobody guesses the random part of its name. -/
def Unguessed (env : Environment) (p : Str) : Prop :=
  ∀ c, nameOf (lastPart p) = some c → ¬TempName env c

/-- What was staged: its path, and the directory and the name under which its body waits. -/
structure Upload where
  path : Str
  name : Str
  loc : Loc
  entry : Name
  node : Node

def Upload.staged (u : Upload) : Str × Str := (u.path,u.name)

def Upload.temp (u : Upload) : Loc × Node := (u.loc ++ [u.entry],u.node)

/-- The upload is that of a filename and a body. -/
def Carries (file : Str × Content) (u : Upload) : Prop :=
  normalizeSubPath file.1 = .ok u.path ∧ ∃ b, u.node = .file b file.2.body

/-- The session holds `files` and, beside them, the temporary files of the uploads. -/
structure Holds (files : Loc → Option Node) (us : List Upload) (w : World) : Prop where
  pending : Machine.Pending files w.root.leaf (us.map Upload.temp)
  waiting : ∀ u ∈ us, Waiting u.path u.name u.loc u.entry u.node w.root
  drawn : ∀ u ∈ us, TempName w.env u.entry
  unguessed : ∀ u ∈ us, Unguessed w.env u.path

/-- One temporary file more is there for good. -/
def Littered (env : Environment) (files base : Loc → Option Node) : Prop :=
  ∃ loc c n, TempName env c ∧ files (loc ++ [c]) = none ∧
    base = Function.update files (loc ++ [c]) (some n)

/-- Temporary files may have been added for good. -/
def Strewn (env : Environment) (files base : Loc → Option Node) : Prop :=
  ∀ loc, base loc = files loc ∨ files loc = none ∧ ∃ dir c, loc = dir ++ [c] ∧ TempName env c

variable {files base : Loc → Option Node} {us : List Upload} {u : Upload} {w v : World}
  {maxFileSize : ℕ} {file : Str × Content}

theorem Strewn.refl (env : Environment) (files : Loc → Option Node) : Strewn env files files :=
  fun _ => .inl rfl

theorem Strewn.trans {env : Environment} {base' : Loc → Option Node} (h : Strewn env files base)
    (h' : Strewn env base base') : Strewn env files base' := by
  intro loc
  rcases h' loc with hsame | ⟨hnone,htemp⟩
  · rw [hsame]
    exact h loc
  · rcases h loc with hsame | hadded
    · exact .inr ⟨hsame ▸ hnone,htemp⟩
    · exact .inr hadded

theorem strewn_update {env : Environment} {loc : Loc} {c : Name} {o : Option Node}
    (hc : TempName env c) (hnone : files (loc ++ [c]) = none) :
    Strewn env files (Function.update files (loc ++ [c]) o) := by
  intro k
  by_cases hk : k = loc ++ [c]
  · exact .inr ⟨hk ▸ hnone,loc,c,hk,hc⟩
  · exact .inl (Function.update_of_ne hk _ _)

theorem Littered.strewn {env : Environment} (h : Littered env files base) :
    Strewn env files base := by
  obtain ⟨loc,c,n,hc,hnone,rfl⟩ := h
  exact strewn_update hc hnone

theorem Waiting.stays {p name : Str} {loc : Loc} {c : Name} {n t t' : Node}
    (h : Waiting p name loc c n t) (hs : Stays t t') (hleaf : t'.leaf (loc ++ [c]) = some n) :
    Waiting p name loc c n t' := by
  obtain ⟨a,es,hdir,hsearch,hwrite⟩ := h.dir
  obtain ⟨a',es',hdir',hmode⟩ := hs loc a es hdir
  exact ⟨h.normalised,h.place,h.component,h.nameOf,
    ⟨a',es',hdir',hmode ▸ hsearch,hmode ▸ hwrite⟩,hs.enterable h.enterable,
    (Node.leaf_eq_some.mp hleaf).1,h.file⟩

/-- The uploads wait on while directories stay. -/
theorem Holds.stays (h : Holds files us w) (hpending : Machine.Pending base v.root.leaf
      (us.map Upload.temp)) (hs : Stays w.root v.root) (henv : v.env = w.env) : Holds base us v := by
  refine ⟨hpending,fun u hu => ?_,henv ▸ h.drawn,henv ▸ h.unguessed⟩
  exact (h.waiting u hu).stays hs (hpending.map_mem (List.mem_map_of_mem hu))

theorem Holds.grown {mode : Mode} {d : Loc} (h : Holds files us w)
    (hg : Grown mode d w.root v.root) (henv : v.env = w.env) : Holds files us v :=
  h.stays (hg.leaf ▸ h.pending) hg.stays henv

theorem Holds.quiet (h : Holds files us w) (hv : w.Quiet v) : Holds files us v :=
  h.stays (hv.root ▸ h.pending) (hv.root ▸ .refl _) hv.env

/-- One more was staged. -/
theorem Holds.uploads {p name : Str} {loc : Loc} {fd : ℕ} {t x : World} (h : Holds files us w)
    (hq : normalizeSubPath file.1 = .ok p) (hun : Unguessed w.env p)
    (hup : Uploads maxFileSize p file.2 w fd name loc t v) (hroot : x.root = v.root)
    (henv : x.env = w.env) : ∃ u, (p,name) = u.staged ∧ Carries file u ∧ Holds files (us ++ [u]) x := by
  obtain ⟨c,b,_,hnone,hwait⟩ := hup.waiting (normalizeSubPath_normalised hq)
  obtain ⟨n,hn⟩ := hup.drawn
  obtain ⟨_,_,_,b',hc,_,_,_,_,hrel⟩ := hup.temporary.file
  cases hwait.nameOf.symm.trans hc
  have hb : Node.file b file.2.body = .file b' file.2.body :=
    Option.some.inj (hwait.get.symm.trans (hrel.get_entry []))
  rw [← hb] at hrel
  obtain ⟨hleaf,hstays⟩ := hrel.added rfl hnone
  rw [← hroot,hup.grown.leaf] at hleaf
  have hfree : w.root.leaf (loc ++ [c]) = none := by
    rw [← hup.grown.leaf]
    exact Node.leaf_of_none hnone
  have hpending := hleaf ▸ h.pending.stage (n := Node.file b file.2.body) hfree
  have hstays : Stays w.root x.root := hroot ▸ hup.grown.stays.trans hstays
  have hall {P : Upload → Prop} (hus : ∀ u ∈ us, P u)
      (hu : P ⟨p,name,loc,c,.file b file.2.body⟩) :
      ∀ u ∈ us ++ [⟨p,name,loc,c,.file b file.2.body⟩], P u :=
    List.forall_mem_append.mpr ⟨hus,List.forall_mem_singleton.mpr hu⟩
  refine ⟨⟨p,name,loc,c,.file b file.2.body⟩,rfl,⟨hq,b,rfl⟩,
    ⟨by rw [List.map_append]; exact hpending,hall (fun u hu => ?_) (hwait.root hroot),?_,?_⟩⟩
  · exact (h.waiting u hu).stays hstays
      (hpending.map_mem (List.mem_append_left _ (List.mem_map_of_mem hu)))
  · exact henv ▸ hall h.drawn ⟨n,hn ▸ hc⟩
  · exact henv ▸ hall h.unguessed hun

/-- One temporary file more is left behind. -/
theorem Holds.litters {mode : Mode} {d loc : Loc} {c : Name} {n t : Node} (h : Holds files us w)
    (hg : Grown mode d w.root t) (hc : TempName w.env c) (hnone : t.get (loc ++ [c]) = none)
    (hrel : Relinked loc c (some n) t v.root) (hn : n.isDir = false) (henv : v.env = w.env) :
    ∃ base, Littered w.env files base ∧ Holds base us v := by
  obtain ⟨hleaf,hstays⟩ := hrel.added hn hnone
  rw [hg.leaf] at hleaf
  have hfree : w.root.leaf (loc ++ [c]) = none := by
    rw [← hg.leaf]
    exact Node.leaf_of_none hnone
  refine ⟨_,⟨loc,c,n,hc,(h.pending.ne_of_free hfree).1,rfl⟩,h.stays ?_ (hg.stays.trans hstays) henv⟩
  rw [hleaf]
  exact h.pending.litter hfree

/-- A temporary file that was written and not closed off properly. -/
theorem Holds.leaks {p name : Str} {loc : Loc} {fd : ℕ} {t x : World} (h : Holds files us w)
    (hup : Uploads maxFileSize p file.2 w fd name loc t v) (hroot : x.root = v.root)
    (henv : x.env = w.env) : ∃ base, Littered w.env files base ∧ Holds base us x := by
  obtain ⟨c,_,es,b,hc,hdir,_,hnone,_,hrel⟩ := hup.temporary.file
  obtain ⟨n,hn⟩ := hup.drawn
  exact h.litters hup.grown ⟨n,hn ▸ hc⟩ (by rw [Node.get_entry hdir,hnone]) (hroot ▸ hrel) rfl henv

/-- A temporary file without an owner. -/
theorem Holds.strays {p : Str} (h : Holds files us w) (hlitters : Litters p w v)
    (henv : v.env = w.env) : ∃ base, Littered w.env files base ∧ Holds base us v := by
  obtain ⟨loc,t,_,hg,n,c,b,body,hc,hnone,hrel⟩ := hlitters
  exact h.litters hg ⟨n,hc⟩ hnone hrel rfl henv

theorem stageFile_env (maxFileSize : ℕ) (file : Str × Content) :
    (stageFile rootDirectory maxFileSize file.1 file.2).Ends w fun _ v => v.env = w.env := by
  cases hq : normalizeSubPath file.1 with
  | error e =>
    unfold stageFile normalize
    rw [hq]
    rfl
  | ok p =>
    refine ends_stageFile hq (fun _ _ _ hk => ?_) (fun _ _ _ _ hk => ?_)
      (fun _ _ _ _ _ _ _ _ _ _ hk => ?_) fun _ _ _ _ _ _ _ _ _ hk => ?_
    all_goals exact hk.env

variable (maxFileSize) in
/-- What `stage_file` leaves of the uploads. -/
theorem Holds.stage (h : Holds files us w)
    (hun : ∀ p, normalizeSubPath file.1 = .ok p → Unguessed w.env p) :
    (stageFile rootDirectory maxFileSize file.1 file.2).Ends w fun r v => v.env = w.env ∧
      match r with
      | .ok st => ∃ u, st = u.staged ∧ Carries file u ∧ Holds files (us ++ [u]) v
      | .error _ => Holds files us v ∨ (¬Tidy w.env ∨ StagingLeaks maxFileSize file.1 file.2 w) ∧
          ∃ base, Littered w.env files base ∧ Holds base us v := by
  cases hq : normalizeSubPath file.1 with
  | error e =>
    unfold stageFile normalize
    rw [hq]
    exact ⟨rfl,.inl h⟩
  | ok p =>
    refine ends_stageFile hq ?_ ?_ ?_ ?_
    · exact fun e v hg hk => ⟨hk.env,.inl (h.grown hg hk.env)⟩
    · exact fun e v hwhy hlitters hk =>
        ⟨hk.env,.inr ⟨hwhy.imp_right .inl,h.strays hlitters hk.env⟩⟩
    · intro fd name loc t v e x hup hclose hroot hk
      exact ⟨hk.env,.inr ⟨.inr (.inr ⟨p,fd,name,loc,t,v,hq,hup,hclose⟩),h.leaks hup hroot hk.env⟩⟩
    · intro fd name loc t v x hup _ hroot hk
      exact ⟨hk.env,h.uploads hq (hun p hq) hup hroot hk.env⟩

theorem Holds.stage_leaks (h : Holds files us w)
    (hleaks : StagingLeaks maxFileSize file.1 file.2 w) :
    ∃ e v base, stageFile rootDirectory maxFileSize file.1 file.2 w = (.error e,v) ∧
      v.env = w.env ∧ Littered w.env files base ∧ Holds base us v := by
  rcases hleaks with hleak | ⟨p,fd,name,loc,t,v,hq,hup,hclose⟩
  · rcases hrun : stageFile rootDirectory maxFileSize file.1 file.2 w with ⟨r,v⟩
    obtain ⟨⟨e,rfl⟩,henv,p,-,hlitters⟩ :=
      (Program.ends_of_run hrun).mp (ends_stageFile_handover hleak)
    obtain ⟨base,hlit,hholds⟩ := h.strays hlitters henv
    exact ⟨e,v,base,rfl,henv,hlit,hholds⟩
  · obtain ⟨e,he⟩ := stageFile_leaks hq hup hclose
    obtain ⟨base,hlit,hholds⟩ := h.leaks (x := (v.close fd).tick) hup rfl hup.keeps.env
    exact ⟨e,_,base,he,hup.keeps.env,hlit,hholds⟩

/-- The first upload is given up. -/
theorem Holds.keep (h : Holds files (u :: us) w) :
    Holds (Function.update files (u.loc ++ [u.entry]) (some u.node)) us w :=
  ⟨h.pending.keep,fun u hu => h.waiting u (List.mem_cons_of_mem _ hu),
    fun u hu => h.drawn u (List.mem_cons_of_mem _ hu),
    fun u hu => h.unguessed u (List.mem_cons_of_mem _ hu)⟩

/-- The first upload is discarded, unless that fails. -/
theorem Holds.discard (h : Holds files (u :: us) w) :
    (discardStagedFile rootDirectory u.path u.name).Ends w fun _ v => v.env = w.env ∧
      (Holds files us v ∨ ¬w.Calm ∧ Holds files (u :: us) v) := by
  have hwait := h.waiting u List.mem_cons_self
  refine ends_discardStagedFile hwait (fun r v hno hroot hk => ⟨hk.env,.inr ⟨hno,?_⟩⟩)
    fun r v hrel hk => ⟨hk.env,.inl ?_⟩
  · exact h.stays (hroot ▸ h.pending) (hroot ▸ .refl _) hk.env
  · obtain ⟨hleaf,hstays⟩ := hrel.removed hwait.get hwait.file
    have hpending := hleaf ▸ h.pending.discard
    have hrest : ∀ u ∈ us, _ := fun u hu => h.waiting u (List.mem_cons_of_mem _ hu)
    refine ⟨hpending,fun u hu => (hrest u hu).stays hstays ?_,?_,?_⟩
    · exact hpending.map_mem (List.mem_map_of_mem hu)
    · exact hk.env ▸ fun u hu => h.drawn u (List.mem_cons_of_mem _ hu)
    · exact hk.env ▸ fun u hu => h.unguessed u (List.mem_cons_of_mem _ hu)

theorem discardStagedFile_later (p name : Str) :
    (discardStagedFile rootDirectory p name).Within World.Later := by
  unfold discardStagedFile
  rw [openParent_eq fun _ => rfl]
  refine (enterParent_later _ _).bind fun fd => .ensure (.handle (Os.unlink_later _ _) fun e => ?_)
    (Os.close_later fd)
  cases e with
  | os cls errno => cases cls <;> first | exact .pure _ | exact .raise _
  | valueError | unicodeEncodeError | cancelled | app => exact .raise _

theorem mapErrno_raises {α : Type} {errnos : List Errno} {cls : OSErrorClass} {x : Api α}
    (hx : x.Raises Os.IsOSError) : (mapErrno errnos cls x).Raises Os.IsOSError := by
  refine hx.handle_of fun e he => ?_
  split
  · split_ifs
    · exact .raise ⟨_,_,rfl⟩
    · exact .raise he
  · exact .raise he

theorem enterParts_raises {parts : List Str} {loc : Loc} (fd : ℕ)
    (hparts : ∀ s ∈ parts, Component s) (hloc : place parts = some loc) :
    (enterParts false fd parts).Raises Os.IsOSError := by
  induction parts generalizing fd loc with
  | nil => exact .pure _
  | cons s parts ih =>
    rw [place,Option.bind_eq_some_iff] at hloc
    obtain ⟨c,hc,hloc⟩ := hloc
    obtain ⟨q,hq,rfl⟩ := Option.map_eq_some_iff.mp hloc
    have hopen : (Os.open_ s dirFlags dirMode (some fd) : Api ℕ).Raises Os.IsOSError := by
      unfold Os.open_
      rw [Os.path_of_name (hparts s List.mem_cons_self) hc,Program.pure_bind]
      exact Os.syscall_raises _ _
    refine .bind (.onError ?_ (Os.close_raises fd)) fun fd' =>
      ih fd' (fun s hs => hparts s (List.mem_cons_of_mem _ hs)) hq
    exact (mapErrno_raises hopen).bind fun _ => (Os.close_raises fd).bind fun _ => .pure _

/-- Discarding fails with an `OSError` only. -/
theorem discardStagedFile_raises {p name : Str} {loc : Loc} {c : Name} (hp : Normalised p)
    (hloc : place (split p).dropLast = some loc) (hs : Component name) (hc : nameOf name = some c) :
    (discardStagedFile rootDirectory p name).Raises Os.IsOSError := by
  have hunlink (fd : ℕ) : (Os.unlink name fd : Api Unit).Raises Os.IsOSError := by
    unfold Os.unlink
    rw [Os.path_of_name hs hc,Program.pure_bind]
    exact Os.syscall_raises _ _
  unfold discardStagedFile
  rw [openParent_eq fun _ => rfl]
  refine .bind (.bind (openWork_eq ▸ Os.syscall_raises _ _) fun fd => enterParts_raises fd
    (fun s hs => component_of_mem hp (List.dropLast_subset _ hs)) hloc) fun fd => ?_
  refine .ensure ((hunlink fd).handle_of fun e he => ?_) (Os.close_raises fd)
  split
  · exact .pure _
  · exact .raise he

theorem ends_suppressOSError {x : Api Unit} {P : World → Prop} (hx : x.Ends w fun _ v => P v)
    (hr : x.Raises Os.IsOSError) : (suppressOSError x).Ends w fun r v => r = .ok () ∧ P v := by
  refine Program.Ends.handle (Program.Ends.run hx) (fun _ v h => ⟨rfl,h.2⟩) fun e v h => ?_
  obtain ⟨cls,errno,rfl⟩ := hr w e (congrArg Prod.fst h.1)
  exact ⟨rfl,h.2⟩

/-- The temporary file of an upload is not there any more. -/
structure Gone (u : Upload) (t : Node) : Prop where
  normalised : Normalised u.path
  place : place (split u.path).dropLast = some u.loc
  component : Component u.name
  nameOf : nameOf u.name = some u.entry
  get : t.get (u.loc ++ [u.entry]) = none

theorem Holds.revealed {d : Name} (h : Holds files (u :: us) w)
    (hd : nameOf (lastPart u.path) = some d) (hren : Renamed u.loc u.entry d u.node w.root v.root)
    (henv : v.env = w.env) :
    Holds (Function.update files (u.loc ++ [d]) (some u.node)) us v ∧ Gone u v.root := by
  have hwait := h.waiting u List.mem_cons_self
  have htemp {u' : Upload} (hu' : u' ∈ u :: us) : u'.entry ≠ d := by
    rintro rfl
    exact h.unguessed u List.mem_cons_self _ hd (h.drawn u' hu')
  have hother : ∀ e ∈ us.map Upload.temp, e.1 ≠ u.loc ++ [d] := by
    intro e he heq
    obtain ⟨u',hu',rfl⟩ := List.mem_map.mp he
    exact htemp (List.mem_cons_of_mem _ hu') (List.append_inj' heq rfl |>.2 |> List.cons.inj |>.1)
  have hpending := hren.leaf ▸ h.pending.commit hother
  refine ⟨⟨hpending,fun u' hu' => ?_,?_,?_⟩,hwait.normalised,hwait.place,hwait.component,
    hwait.nameOf,hren.gone (htemp List.mem_cons_self)⟩
  · exact (h.waiting u' (List.mem_cons_of_mem _ hu')).stays hren.stays
      (hpending.map_mem (List.mem_map_of_mem hu'))
  · exact henv ▸ fun u hu => h.drawn u (List.mem_cons_of_mem _ hu)
  · exact henv ▸ fun u hu => h.unguessed u (List.mem_cons_of_mem _ hu)

/-- The first upload is committed, unless that fails. It may fail after the rename. -/
theorem Holds.commit (h : Holds files (u :: us) w) :
    (commitStagedFile rootDirectory u.path u.name).Ends w fun r v => v.env = w.env ∧
      (r ≠ .ok () ∧ Holds files (u :: us) v ∨ ∃ loc, place (split u.path) = some loc ∧
        Holds (Function.update files loc (some u.node)) us v ∧ Gone u v.root) := by
  have hwait := h.waiting u List.mem_cons_self
  have hreveals {d : Name} {fd : ℕ} {t x v : World}
      (hrev : Reveals u.path u.name u.loc u.entry d u.node w fd t x) (hroot : v.root = x.root)
      (hk : w.Keeps w.nextFd v) : ∃ loc, place (split u.path) = some loc ∧
        Holds (Function.update files loc (some u.node)) us v ∧ Gone u v.root :=
    ⟨_,hrev.place,h.revealed hrev.nameOf (hroot ▸ hrev.renamed) hk.env⟩
  refine ends_commitStagedFile hwait (fun e v hroot hk => ⟨hk.env,.inl ⟨nofun,?_⟩⟩) ?_ ?_
  · exact h.stays (hroot ▸ h.pending) (hroot ▸ .refl _) hk.env
  · exact fun d fd t x e v hrev _ hroot hk => ⟨hk.env,.inr (hreveals hrev hroot hk)⟩
  · exact fun d fd t x v hrev _ hroot hk => ⟨hk.env,.inr (hreveals hrev hroot hk)⟩

/-- The entries `staged` are the uploads that wait, and perhaps a first one that was committed. -/
def Queued (files : Loc → Option Node) (staged : List (Str × Str)) (w : World) : Prop :=
  ∃ us, Holds files us w ∧ (staged = us.map Upload.staged ∨
    ∃ u, staged = u.staged :: us.map Upload.staged ∧ Gone u w.root)

end Session
end CodeExecutorApi
