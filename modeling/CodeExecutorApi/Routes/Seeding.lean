import CodeExecutorApi.Routes.Execute
import CodeExecutorApi.Routes.FileMap
import CodeExecutorApi.Sessions.Atomicity
import CodeExecutorApi.Sessions.Creation

/-! The seeds of a session. Each part of the multipart body is written as it arrives, and the
uploader may take any time between two awaits. -/
namespace CodeExecutorApi
open Python Posix Machine

namespace Session
variable {w v : World} {q : Str} {maxFileSize : ℕ} {content : Content}

/-- Whatever fails on the way, once a write returns its body is at its place, and no other leaf has
changed. -/
theorem writeFile_leaf (h : writeFile rootDirectory maxFileSize q content w = (.ok (),v)) :
    ∃ loc b, subPlace q = some loc ∧
      v.root.leaf = Function.update w.root.leaf loc (some (.file b content.body)) := by
  have hends : (writeFile rootDirectory maxFileSize q content).Ends w fun r v =>
      r = .ok () → ∃ loc b, subPlace q = some loc ∧
        v.root.leaf = Function.update w.root.leaf loc (some (.file b content.body)) := by
    cases hq : normalizeSubPath q with
    | error e =>
      unfold writeFile stageFile normalize
      rw [hq]
      exact nofun
    | ok p =>
      have hp := normalizeSubPath_normalised hq
      refine Program.Ends.bind (Program.Ends.run (Q := fun r v' => ∀ st, r = .ok st →
        ∃ fd name loc u v, st = (p,name) ∧ Uploads maxFileSize p content w fd name loc u v ∧
          v'.root = v.root ∧ w.Keeps w.nextFd v') ?_) ?_ fun _ _ _ => nofun
      · refine ends_stageFile hq (fun _ _ _ _ => nofun) (fun _ _ _ _ _ => nofun)
          (fun _ _ _ _ _ _ _ _ _ _ _ => nofun) ?_
        rintro fd name loc u v x hup - hroot hk st ⟨⟩
        exact ⟨fd,name,loc,u,v,rfl,hup,hroot,hk⟩
      rintro st v' ⟨hstage,hup⟩
      obtain ⟨fd,name,loc,u,v,rfl,hup,hroot,hk⟩ := hup st rfl
      obtain ⟨c,b,_,_,hwait⟩ := hup.waiting hp
      have hst : Stages maxFileSize q p content w fd name loc u v v' := ⟨hup,hstage,hroot,hk⟩
      refine Program.Ends.handle (R := fun r y => r = .ok () → ∃ loc b, subPlace q = some loc ∧
        y.root.leaf = Function.update w.root.leaf loc (some (.file b content.body)))
        (ends_commitStagedFile (hwait.root hroot) (fun _ _ _ _ => nofun)
          (fun _ _ _ _ _ _ _ _ _ _ => nofun) ?_) (fun _ y h => h) fun e y _ => ?_
      · rintro d fd' u' x y hrev - hy - -
        obtain ⟨b',hb,hleaf⟩ := hst.leaf hwait.nameOf hrev
        rw [hb] at hleaf
        exact ⟨loc ++ [d],b',(subPlace_eq hq).trans hrev.place,hy ▸ hleaf⟩
      -- a failed commit is raised again, whatever became of the staged file
      · refine Program.Ends.bind (R := fun _ _ => True) trivial (fun _ z _ => ?_) fun _ _ _ => nofun
        split <;> exact nofun
  exact (Program.ends_of_run h).mp hends rfl

end Session

/-- One turn of the loop over the parts in `handle_create_session`. -/
def seedPart (workDirectory : Str) (maxFileSize : ℕ) (part : Part) : Api Unit :=
  match part.filename with
  | none => .raise (.app (.invalidField .notAFile))
  | some filename => Session.writeFile workDirectory maxFileSize filename part.content

/-- The place a part is for. -/
def Part.place (part : Part) : Option Loc := part.filename.bind subPlace

/-- The body of the last part for a place. -/
def lastBody (loc : Loc) : List Part → Option Bytes
  | [] => none
  | part :: parts =>
    match lastBody loc parts with
    | some body => some body
    | none => if part.place = some loc then some part.content.body else none

/-- A stretch of a seed upload between two awaits, as what it does to the session directory. -/
abbrev Stretch := Node → Option Node

/-- Session directories as trees. `mkdtemp` makes an empty one. -/
def Storage.trees (a : Attr) : Storage Node Stretch where
  fresh := .dir a []
  act stretch t := stretch t

def Stretch.run (stretches : List Stretch) (t : Node) : Option Node :=
  stretches.foldlM (fun t stretch => stretch t) t

/-- The awaits cut the loop over the parts into stretches. Those of one part do together what its
turn does, in whatever state of the process it is. -/
inductive Cut (maxFileSize : ℕ) : List Part → List Stretch → Prop
  | done : Cut maxFileSize [] []
  | part {part parts stretches rest}
      (turn : ∀ t t', Stretch.run stretches t = some t' → ∃ w v, w.root = t ∧ v.root = t' ∧
        seedPart Session.rootDirectory maxFileSize part w = (.ok (),v))
      (others : Cut maxFileSize parts rest) : Cut maxFileSize (part :: parts) (stretches ++ rest)

section Uploads
variable {maxFileSize : ℕ} {part : Part} {parts : List Part} {stretches : List Stretch}
  {t t' : Node} {w v : World}

theorem seedPart_leaf (h : seedPart Session.rootDirectory maxFileSize part w = (.ok (),v)) :
    ∃ loc b, part.place = some loc ∧
      v.root.leaf = Function.update w.root.leaf loc (some (.file b part.content.body)) := by
  rw [Part.place]
  rw [seedPart] at h
  cases hq : part.filename with
  | none =>
    rw [hq] at h
    cases h
  | some q =>
    rw [hq] at h
    exact Session.writeFile_leaf h

/-- An upload leaves the last body at each place that has one, and the other leaves as they were. -/
theorem Cut.leaf (cut : Cut maxFileSize parts stretches) (h : Stretch.run stretches t = some t')
    (loc : Loc) : match lastBody loc parts with
    | some body => ∃ b, t'.leaf loc = some (.file b body)
    | none => t'.leaf loc = t.leaf loc := by
  induction cut generalizing t with
  | done =>
    cases h
    rfl
  | @part part parts stretches rest turn cut ih =>
    rw [Stretch.run,List.foldlM_append,Option.bind_eq_bind,Option.bind_eq_some_iff] at h
    obtain ⟨t₁,hfirst,hrest⟩ := h
    obtain ⟨w,v,rfl,rfl,hturn⟩ := turn t t₁ hfirst
    obtain ⟨place,b,hplace,hleaf⟩ := seedPart_leaf hturn
    have hlater := ih hrest
    rw [lastBody]
    cases hlast : lastBody loc parts with
    | some body =>
      rw [hlast] at hlater
      exact hlater
    | none =>
      rw [hlast] at hlater
      by_cases hloc : part.place = some loc
      · rw [hplace] at hloc
        cases hloc
        rw [if_pos hplace]
        refine ⟨b,?_⟩
        rw [hlater,hleaf,Function.update_self]
      · rw [if_neg hloc]
        have hne : loc ≠ place := by
          rintro rfl
          exact hloc hplace
        change t'.leaf loc = _
        rw [hlater,hleaf,Function.update_of_ne hne]

end Uploads

/-- A directory as `mkdtemp` makes it. -/
def rootAttr : Attr := ⟨0,Session.dirMode,0,0,0⟩

/-- The turn of a part whose body comes in one piece. -/
def wholeTurn (maxFileSize : ℕ) (part : Part) : Stretch := fun t =>
  match seedPart Session.rootDirectory maxFileSize part {newSession with root := t} with
  | (.ok (),v) => some v.root
  | (.error _,_) => none

theorem wholeTurn_cut (maxFileSize : ℕ) (part : Part) :
    Cut maxFileSize [part] [wholeTurn maxFileSize part] := by
  change Cut maxFileSize [part] ([wholeTurn maxFileSize part] ++ [])
  refine .part (fun t t' h => ?_) .done
  have hturn : wholeTurn maxFileSize part t = some t' := by
    simpa [Stretch.run] using h
  unfold wholeTurn at hturn
  split at hturn
  · next v hv =>
    cases hturn
    exact ⟨{newSession with root := t},v,rfl,rfl,hv⟩
  · cases hturn

def aFile : Part := ⟨none,some (lit "a"),.bytes [1],fun _ => .error .encoding⟩

theorem wholeTurn_aFile : ∃ t, wholeTurn 9 aFile (.dir rootAttr []) = some t :=
  Option.isSome_iff_exists.mp (by decide +kernel)

namespace Manager
variable {cfg : Config} {m m' : Manager Node Stretch} {e : Event Node Stretch}
  {t : TaskId} {s : Ref} {h : List (Manager Node Stretch × Event Node Stretch)}

/-- What a reported session has to be: alive and, after an upload, in possession of every file of
it. `m` is the state in which the creating task resumed. -/
structure Delivered (maxFileSize : ℕ) (h : List (Manager Node Stretch × Event Node Stretch))
    (m : Manager Node Stretch) (t : TaskId) (s : Ref) (m' : Manager Node Stretch) : Prop where
  live : Live m' s
  seeded : ∀ parts stretches ok, m.task t = .seed s [] →
    (∃ p ∈ h, p.2 = .create t (.handleCreateSession (some stretches)) ok) →
    Cut maxFileSize parts stretches → ∃ tree, m'.dir s = some tree ∧
      ∀ loc body, lastBody loc parts = some body → ∃ b, tree.get loc = some (.file b body)

/-- Along every run a session is delivered as it is reported, provided that nobody else uses a session
in the making and that no sweep pass comes to one more than the timeout after it was made. -/
theorem reported_delivered (maxFileSize : ℕ) {a : Attr}
    (run : Run (step (.trees a) cfg) (init cfg) h m) (hg : Guarded (SparesNew cfg) h)
    (reports : Reports (.trees a) cfg m e t s m') : Delivered maxFileSize h m t s m' := by
  obtain ⟨hlive,hseeded⟩ := Reports.live run hg reports
  refine ⟨hlive,fun parts stretches ok pc asked cut => ?_⟩
  have hdir := hseeded stretches ok pc asked
  obtain ⟨tree,htree⟩ := Option.isSome_iff_exists.mp hlive.dir
  refine ⟨tree,htree,fun loc body hbody => ?_⟩
  have hrun : Stretch.run stretches (.dir a []) = some tree := hdir.symm.trans htree
  have hleaf := cut.leaf hrun loc
  rw [hbody] at hleaf
  obtain ⟨b,hb⟩ := hleaf
  exact ⟨b,(Node.leaf_eq_some.mp hb).1⟩


/-- Until the timeout has passed, a creation and a sweep are no danger to a session in the making. -/
theorem SparesNew.early (hrequest : ∀ t id, e ≠ .request t id) (hdelete : ∀ t id, e ≠ .delete t id)
    (hclock : m.clock ≤ cfg.inactivityTimeout)
    (hresume : ∀ t sig, e = .resume t sig → (m.task t).creating.isSome = true) :
    SparesNew cfg m e := by
  intro t s _
  refine ⟨fun t id he => ?_,fun now visits => ?_⟩
  · rcases he with he | he
    · exact absurd he (hrequest t id)
    · exact absurd he (hdelete t id)
  · cases visits with
    | begins => omega
    | granted pc | skipped pc | passed pc | went pc =>
      have hs := hresume _ _ rfl
      rw [pc] at hs
      cases hs

theorem resume_seed {a : Attr} {stretch : Stretch} {rest : List Stretch} {d d' : Node}
    (pc : m.task t = .seed s (stretch :: rest)) (dir : m.dir s = some d)
    (act : stretch d = some d') : step (.trees a) cfg m (.resume t .ok) =
      some ((m.setDir s (some d')).setPc t (.seed s rest)) := by
  simp only [step,resume,pc,dir,Storage.trees,Option.bind_some,act]

/-- An upload of one file up to its end, with a sweep before the file comes. -/
theorem reported_delivered_aFile : ∃ h m t b,
    Run (step (.trees rootAttr) .tight) (init .tight) h m ∧ .sweep 1 ∈ h.map Prod.snd ∧
      Live m 0 ∧ m.dir 0 = some t ∧ t.get [⟨[0x61],by decide⟩] = some (.file b [1]) := by
  obtain ⟨t,ht⟩ := wholeTurn_aFile
  have hrun : ∃ h m, replay (step (.trees rootAttr) .tight) [] (init .tight)
      [.create 0 (.handleCreateSession (some [wholeTurn 9 aFile])) true,.resume 0 .ok,.tick 1,
        .sweep 1] = some (h,m) ∧ Guarded (SparesNew .tight) h ∧ (h.map Prod.snd)[0]? = some (.sweep 1) ∧
      (h.map Prod.snd)[3]? =
        some (.create 0 (.handleCreateSession (some [wholeTurn 9 aFile])) true) ∧
      m.task 0 = .seed 0 [wholeTurn 9 aFile] ∧ m.dir 0 = some (.dir rootAttr []) ∧ m.clock = 1 := by
    refine ⟨_,_,rfl,?_,rfl,rfl,rfl,rfl,rfl⟩
    simp only [guarded_cons,guarded_nil,and_true]
    refine ⟨?_,?_,?_,?_⟩
    · exact .early (by rintro _ _ ⟨⟩) (by rintro _ _ ⟨⟩) (by decide) (by rintro _ _ ⟨⟩)
    · exact .early (by rintro _ _ ⟨⟩) (by rintro _ _ ⟨⟩) (by decide) (by rintro _ _ ⟨⟩)
    · refine .early (by rintro _ _ ⟨⟩) (by rintro _ _ ⟨⟩) (by decide) ?_
      rintro t sig ⟨⟩
      rfl
    · exact .early (by rintro _ _ ⟨⟩) (by rintro _ _ ⟨⟩) (by decide) (by rintro _ _ ⟨⟩)
  obtain ⟨h,m,hr,hg,hsweep,hcreate,pc,dir,hclock⟩ := hrun
  have run := (replay_run hr).next (resume_seed pc dir ht)
  have hg' : Guarded (SparesNew .tight) ((m,.resume 0 .ok) :: h) := by
    refine (guarded_cons _ _ _ _).mpr
      ⟨.early (by rintro _ _ ⟨⟩) (by rintro _ _ ⟨⟩) hclock.le ?_,hg⟩
    rintro t sig ⟨⟩
    rw [pc]
    rfl
  have pc' : ((m.setDir 0 (some t)).setPc 0 (.seed 0 [])).task 0 = .seed 0 [] := by
    rw [setPc_task,if_pos rfl]
  have hdelivered := reported_delivered 9 run hg' (.seeded pc')
  obtain ⟨p,hp,hpe⟩ := List.mem_map.mp (List.mem_of_getElem? hcreate)
  obtain ⟨tree,htree,hfiles⟩ := hdelivered.seeded [aFile] _ true pc'
    ⟨p,List.mem_cons_of_mem _ hp,hpe⟩ (wholeTurn_cut 9 aFile)
  obtain ⟨b,hb⟩ := hfiles [⟨[0x61],by decide⟩] [1] (by decide +kernel)
  refine ⟨_,_,tree,b,run,?_,hdelivered.live,htree,hb⟩
  exact List.mem_cons_of_mem _ (List.mem_of_getElem? hsweep)

/-- No request names a session in the making. Clients do not know its id. -/
def Unnamed (m : Manager Node Stretch) (e : Event Node Stretch) : Prop :=
  ∀ t s, (m.task t).creating = some s → ∀ t' id, e = .request t' id ∨ e = .delete t' id →
    m.get id ≠ some s

/-- The event names no session. -/
def anonymous : Event Node Stretch → Bool
  | .request _ _ | .delete _ _ => false
  | _ => true

theorem unnamed_of_anonymous (hall : h.all (fun p => anonymous p.2) = true) :
    Guarded Unnamed h := by
  intro p hp t s _ t' id he
  have ha := List.all_eq_true.mp hall p hp
  rcases he with he | he
  · rw [he] at ha
    cases ha
  · rw [he] at ha
    cases ha

/-- An upload ends later than the timeout after its session was made, which is swept meanwhile. The
session is reported all the same. -/
theorem swept_before_report : ¬∀ h m m' e t s,
    Run (step (.trees rootAttr) .tight) (init .tight) h m → Guarded Unnamed h →
      Reports (.trees rootAttr) .tight m e t s m' → Delivered 9 h m t s m' := by
  intro hclaim
  have hrun : ∃ h m, replay (step (.trees rootAttr) .tight) [] (init .tight)
      [.create 0 (.handleCreateSession (some [])) true,.resume 0 .ok,.tick 2,.sweep 1,
        .resume 1 .ok,.resume 1 .ok] = some (h,m) ∧
      h.all (fun p => anonymous p.2) = true ∧ m.task 0 = .seed 0 [] ∧
        m.get (m.heap 0).id = none := ⟨_,_,rfl,rfl,rfl,rfl⟩
  obtain ⟨h,m,hr,hall,pc,hgone⟩ := hrun
  have hlive := (hclaim h m m _ 0 0 (replay_run hr) (unnamed_of_anonymous hall)
    (.seeded pc)).live.registered
  rw [hgone] at hlive
  cases hlive

end Manager
end CodeExecutorApi
