import CodeExecutorApi.Routes.Answers
import CodeExecutorApi.Routes.Refusal
import CodeExecutorApi.Sessions.Directories

/-! The directories that refused writes leave in a session. -/
namespace CodeExecutorApi
open Python Posix Machine Session

/-- While the parts are read, the walk to an attachment comes to a directory to make. -/
def BodyMakes (limits : Limits) : Fields → List (Except (Exc AppError) Part) → World → Prop
  | fields, .ok part :: parts, w =>
    (∃ file, part.attachment = some file ∧ StagingMakes file.1 w) ∨
      ∃ fields' v, readPart limits rootDirectory fields part w = (.ok (.ok fields'),v) ∧
        BodyMakes limits fields' parts v
  | _, _, _ => False

theorem Session.Waits.kept {st : Str × Str} {t t' : Node} (h : Waits st t)
    (hleaf : ∀ k n, t.leaf k = some n → t'.leaf k = some n) : Waits st t' := by
  obtain ⟨loc,c,n,hloc,hc,hn⟩ := h.leaf
  exact ⟨h.normalised,h.component,loc,c,n,hloc,hc,hleaf _ n hn⟩

section Reading
variable {limits : Limits} {fields : Fields} {part : Part} {w : World}

/-- What was staged waits, before and after a part is read. -/
theorem readPart_climbs (h : ∀ st ∈ fields.staged, Waits st w.root) :
    (readPart limits rootDirectory fields part).Ends w fun r v =>
      Climbs (∃ file, part.attachment = some file ∧ StagingMakes file.1 w) w.root.dirs v.root.dirs ∧
        (∀ st ∈ fields.staged, Waits st v.root) ∧
        ∀ fields', r = .ok (.ok fields') → ∀ st ∈ fields'.staged, Waits st v.root := by
  cases hfile : part.attachment with
  | none =>
    refine (readPart_other limits fields hfile).mono fun r v ⟨hv,hsame⟩ => ?_
    rw [hv.root]
    refine ⟨.rest rfl (by simp),h,fun fields' hr => ?_⟩
    rw [hsame fields' hr]
    exact h
  | some file =>
    have hmakes : StagingMakes file.1 w ↔
        ∃ file', some file = some file' ∧ StagingMakes file'.1 w := by simp
    have hclimbs := stageFile_climbs (q := file.1) (w := w) limits.maxFileSize file.2
    obtain ⟨hleaf,hwaits⟩ := stageFile_waits (q := file.1) (w := w) limits.maxFileSize file.2
    rw [readPart_attachment limits fields hfile]
    rcases hrun : stageFile rootDirectory limits.maxFileSize file.1 file.2 w with ⟨e | st,v⟩ <;>
      rw [hrun] at hleaf hwaits <;> rw [Program.ends_of_run hrun] at hclimbs
    · have hstaging : during .staging (stageFile rootDirectory limits.maxFileSize file.1 file.2) w =
          (.error ⟨.staging,e⟩,v) := by
        unfold during Program.mapError
        rw [hrun]
        rfl
      refine (Program.ends_of_run (Program.bind_run_error hstaging)).mpr ?_
      exact ⟨hclimbs.congr hmakes,fun st hst => (h st hst).kept hleaf,nofun⟩
    · have hstaging : during .staging (stageFile rootDirectory limits.maxFileSize file.1 file.2) w =
          (.ok st,v) := by
        unfold during Program.mapError
        rw [hrun]
        rfl
      unfold Program.Ends
      rw [Program.bind_run hstaging]
      refine ⟨hclimbs.congr hmakes,fun st hst => (h st hst).kept hleaf,?_⟩
      rintro _ ⟨⟩
      refine List.forall_mem_append.mpr ⟨fun st hst => (h st hst).kept hleaf,?_⟩
      exact List.forall_mem_singleton.mpr (hwaits st rfl)

/-- The loop over the parts. -/
theorem readParts_climbs {body : List (Except (Exc AppError) Part)}
    (h : ∀ st ∈ fields.staged, Waits st w.root) :
    (readParts limits rootDirectory fields body).Ends w fun r v =>
      Climbs (BodyMakes limits fields body w) w.root.dirs v.root.dirs ∧
        ∀ fields' left, r = .ok (fields',left) → ∀ st ∈ fields'.staged, Waits st v.root := by
  induction body generalizing fields w with
  | nil =>
    refine ⟨.rest rfl fun h => h,?_⟩
    rintro _ _ ⟨⟩
    exact h
  | cons read parts ih =>
    cases read with
    | error e =>
      refine ⟨.rest rfl fun h => h,?_⟩
      rintro _ _ ⟨⟩
      exact h
    | ok part =>
      obtain ⟨hclimbs,hkept,hnext⟩ := readPart_climbs h
      rcases hrun : readPart limits rootDirectory fields part w with ⟨r,v⟩
      rw [hrun] at hclimbs hkept hnext
      by_cases hr : ∃ fields', r = .ok (.ok fields')
      · obtain ⟨fields',rfl⟩ := hr
        have hrest := ih (hnext fields' rfl)
        unfold Program.Ends
        rw [readParts_continues parts hrun]
        refine ⟨(hclimbs.trans hrest.1).congr (or_congr_right ⟨fun h => ⟨fields',v,hrun,h⟩,?_⟩),
          hrest.2⟩
        rintro ⟨fields'',v',hrun',h⟩
        cases hrun.symm.trans hrun'
        exact h
      · have hr := not_exists.mp hr
        obtain ⟨left,_,hstops⟩ := readParts_stops parts hrun hr
        refine (Program.ends_of_run hstops).mpr ⟨hclimbs.congr (or_iff_left ?_).symm,?_⟩
        · rintro ⟨fields',v',hrun',_⟩
          cases hrun.symm.trans hrun'
          exact hr fields' rfl
        · rintro _ _ ⟨⟩
          exact hkept

end Reading

section Finishing
variable {staged : List (Str × Str)} {w : World}

/-- The commit loop keeps the directories, and a part of the list is left. -/
theorem commitAll_dirs (h : ∀ st ∈ staged, Hidden st w.root) :
    (commitAll rootDirectory staged).Ends w fun r v => v.root.dirs = w.root.dirs ∧
      ∀ staged' left, r = .ok (staged',left) → staged' ⊆ staged := by
  induction staged generalizing w with
  | nil =>
    refine ⟨rfl,?_⟩
    rintro _ _ ⟨⟩
    exact List.Subset.refl _
  | cons st staged ih =>
    have hdirs := commitStagedFile_dirs (h st List.mem_cons_self)
    rcases hrun : commitStagedFile rootDirectory st.1 st.2 w with ⟨r,v⟩
    rw [Program.ends_of_run hrun] at hdirs
    have hattempt : (during .committing (commitStagedFile rootDirectory st.1 st.2)).attempt w =
        (.ok (r.mapError (Fault.mk .committing)),v) := by
      unfold Program.attempt during Program.mapError
      rw [hrun]
    unfold Program.Ends commitAll
    rw [Program.bind_run hattempt]
    cases r with
    | ok _ =>
      obtain ⟨hrest,hsub⟩ := ih fun st hst =>
        (h st (List.mem_cons_of_mem _ hst)).of_dirs hdirs
      exact ⟨hrest.trans hdirs,fun staged' left hr =>
        List.subset_cons_of_subset _ (hsub staged' left hr)⟩
    | error e =>
      refine ⟨hdirs,?_⟩
      rintro _ _ ⟨⟩
      exact List.Subset.refl _

theorem discardAll_dirs (h : ∀ st ∈ staged, Hidden st w.root) :
    (discardAll rootDirectory staged).Ends w fun _ v => v.root.dirs = w.root.dirs := by
  induction staged generalizing w with
  | nil => rfl
  | cons st staged ih =>
    have hdirs := suppressOSError_dirs (discardStagedFile_dirs (h st List.mem_cons_self))
    refine Program.Ends.bind (R := fun _ v => v.root.dirs = w.root.dirs) hdirs (fun _ v hv => ?_)
      fun e v hv => hv
    refine (ih fun st hst => (h st (List.mem_cons_of_mem _ hst)).of_dirs hv).mono fun _ x hx => ?_
    exact hx.trans hv

theorem validateAndCommit_dirs {fields : Fields} (left : Left)
    (h : ∀ st ∈ fields.staged, Hidden st w.root) :
    (validateAndCommit rootDirectory fields left).Ends w fun r v => v.root.dirs = w.root.dirs ∧
      ∀ staged' left', r = .ok (staged',left') → staged' ⊆ fields.staged := by
  have hstop (left' : Left) : (pure (fields.staged,left') : Handler _).Ends w fun r v =>
      v.root.dirs = w.root.dirs ∧
        ∀ staged' left'', r = .ok (staged',left'') → staged' ⊆ fields.staged := by
    refine ⟨rfl,?_⟩
    rintro _ _ ⟨⟩
    exact List.Subset.refl _
  unfold validateAndCommit
  split
  · split
    · exact hstop _
    · exact hstop _
    · exact commitAll_dirs h
  · exact hstop _

/-- The staging block makes the directories on the way to the attachments it reads. -/
theorem stagingBlock_climbs (limits : Limits) (body : List (Except (Exc AppError) Part)) :
    (stagingBlock limits rootDirectory body).Ends w fun _ v =>
      Climbs (BodyMakes limits ⟨none,none,[]⟩ body w) w.root.dirs v.root.dirs := by
  refine Program.Ends.bind (readParts_climbs nofun) ?_ fun e v h => h.1
  rintro ⟨fields,left⟩ v ⟨hclimbs,hwaits⟩
  have hhidden := fun st hst => (hwaits fields left rfl st hst).hidden
  refine Program.Ends.bind (validateAndCommit_dirs (malformed left) hhidden) ?_
    fun e u h => hclimbs.level h.1
  rintro ⟨staged,left'⟩ u ⟨hu,hsub⟩
  refine Program.Ends.bind (discardAll_dirs fun st hst =>
    (hhidden st (hsub staged left' rfl hst)).of_dirs hu) (fun _ x hx => ?_)
    fun e x hx => hclimbs.level (hx.trans hu)
  cases left' <;> exact hclimbs.level (hx.trans hu)

end Finishing

/-- A request that writes to a session. -/
inductive WriteRequest
  | put (subPath : Str) (content : Content)
  | execute (host : Host) (request : ExecuteRequest)

/-- The status of a reply, if it is one. -/
def Reply.status : Reply → Option ℕ
  | .listing _ | .body _ => some 200
  | .noContent => some 204
  | .error status _ => some status
  | .internalServerError => some 500
  | .dropped => none

/-- The status of the answer, and what the request leaves. -/
def WriteRequest.run (limits : Limits) : WriteRequest → World → Option ℕ × World
  | .put subPath content, w =>
    let (reply,v) := serve (handlePutFile rootDirectory limits.maxFileSize subPath content) w
    (reply.status,v)
  | .execute host request, w =>
    let (answer,v) := handleExecute limits rootDirectory host request w
    (statusOf answer,v)

/-- The request is refused with a status of the client's, and no code of it has run. -/
structure WriteRequest.Refused (limits : Limits) (r : WriteRequest) (w : World) : Prop where
  status : ∃ status, (r.run limits w).1 = some status ∧ 400 ≤ status ∧ status < 500
  notRun : ∀ host request, r = .execute host request → request.ephemeral = false ∧
    ∀ v, Starts limits rootDirectory host request w v → ¬host.RunsCode v

/-- The request comes to a directory on the way to one of its files that is missing and can be
made. -/
def WriteRequest.Makes (limits : Limits) (r : WriteRequest) (w : World) : Prop :=
  match r with
  | .put subPath _ => StagingMakes subPath w
  | .execute host request => request.multipart = true ∧
      (during .locking (locked host) w).1 = .ok () ∧
      BodyMakes limits ⟨none,none,[]⟩ request.body w

/-- One refused request after the other. -/
abbrev RefusedRun (limits : Limits) : Node → List (WriteRequest × World) → Node → Prop :=
  Chain fun x t t' => x.2.root = t ∧ x.1.Refused limits x.2 ∧ t' = (x.1.run limits x.2).2.root

section Requests
variable {limits : Limits} {w : World}

theorem serve_put_climbs (q : Str) (content : Content) :
    Climbs (StagingMakes q w) w.root.dirs
      (serve (handlePutFile rootDirectory limits.maxFileSize q content) w).2.root.dirs := by
  rcases serve_done (P := fun v => Climbs (StagingMakes q w) w.root.dirs v.root.dirs)
    (R := fun v => Climbs (StagingMakes q w) w.root.dirs v.root.dirs)
    (ends_handlePutFile ((writeFile_climbs limits.maxFileSize content).mono
      fun r v h => by cases r <;> exact h)) with h | h
  · exact h.2
  · exact h.2

/-- A request whose code does not run makes directories in its staging block only. -/
theorem handleExecute_climbs {host : Host} {request : ExecuteRequest} (he : request.ephemeral = false)
    (hrun : ∀ v, Starts limits rootDirectory host request w v → ¬host.RunsCode v) :
    Climbs ((WriteRequest.execute host request).Makes limits w) w.root.dirs
      (handleExecute limits rootDirectory host request w).2.root.dirs := by
  cases hm : request.multipart with
  | false =>
    unfold handleExecute
    rw [if_pos hm]
    refine .rest rfl fun h => ?_
    cases hm.symm.trans h.1
  | true =>
    rw [handleExecute_named limits host request hm he w]
    cases hlock : (during .locking (locked host) w).1 with
    | error fault =>
      have hends : during .locking (locked host) w = (.error fault,w) :=
        Prod.ext hlock (locked_state host w)
      rw [tryBlock_named he,lockedBlock,Program.bind_run_error hends]
      refine .rest rfl fun h => ?_
      cases hlock.symm.trans h.2.1
    | ok _ =>
      have hclimbs : Climbs ((WriteRequest.execute host request).Makes limits w) w.root.dirs
          (stagingBlock limits rootDirectory request.body w).2.root.dirs :=
        Climbs.congr (stagingBlock_climbs limits request.body)
          ⟨fun h => ⟨hm,hlock,h⟩,fun h => h.2.2⟩
      rcases hstaging : stagingBlock limits rootDirectory request.body w with ⟨fault | r,u⟩
      · rw [hstaging] at hclimbs
        rw [tryBlock_locked he hlock,Program.bind_run_error hstaging]
        exact hclimbs
      · rw [hstaging] at hclimbs
        cases r with
        | error response =>
          rw [tryBlock_locked he hlock,Program.bind_run hstaging]
          exact hclimbs
        | ok fields =>
          have hpassed : Passed limits host request w u := ⟨hlock,fields,hstaging⟩
          obtain ⟨_,_,hroot,_⟩ := execute_notRun he hpassed hrun
          rw [tryBlock_passed he hpassed]
          exact hclimbs.level (congrArg Node.dirs hroot)

theorem WriteRequest.Refused.climbs {r : WriteRequest} (h : r.Refused limits w) :
    Climbs (r.Makes limits w) w.root.dirs (r.run limits w).2.root.dirs := by
  cases r with
  | put q content => exact serve_put_climbs q content
  | execute host request =>
    obtain ⟨he,hrun⟩ := h.notRun host request rfl
    exact handleExecute_climbs he hrun

/-- Refused requests leave the directories of a session alone just if none of them comes to a
missing directory that it can make. -/
theorem refused_directories_iff {t t' : Node} {xs : List (WriteRequest × World)}
    (h : RefusedRun limits t xs t') : t'.dirs = t.dirs ↔ ∀ x ∈ xs, ¬x.1.Makes limits x.2 := by
  have hclimbs : Climbs (∃ x ∈ xs, x.1.Makes limits x.2) t.dirs t'.dirs := by
    refine h.climbs fun x t t' hstep => ?_
    obtain ⟨rfl,hrefused,rfl⟩ := hstep
    exact hrefused.climbs
  rw [hclimbs.eq_iff]
  simp only [not_exists,not_and]

end Requests

/-- A file of two bytes, where one is allowed. -/
def largePut (subPath : String) : WriteRequest := .put (lit subPath) (.bytes [1,1])

def narrowLimits : Limits := ⟨1,100,10,0⟩

theorem largePut_refused {subPath : String} {w : World}
    (h : ((largePut subPath).run narrowLimits w).1 = some 413) :
    (largePut subPath).Refused narrowLimits w := by
  refine ⟨⟨413,h,by simp,by simp⟩,fun host request hr => ?_⟩
  unfold largePut at hr
  cases hr

theorem RefusedRun.single {limits : Limits} {r : WriteRequest} {w : World} (h : r.Refused limits w) :
    RefusedRun limits w.root [(r,w)] (r.run limits w).2.root := .cons ⟨rfl,h,rfl⟩ (.nil _)

/-- There is nothing on the way to a file of the root. -/
theorem not_makes_root {q : Str} {content : Content} {limits : Limits} {w : World}
    (h : ∀ p, normalizeSubPath q = .ok p → (split p).dropLast = []) :
    ¬(WriteRequest.put q content).Makes limits w := by
  rintro ⟨p,fd,v,hp,_,hwalk⟩
  rw [h p hp] at hwalk
  exact hwalk

theorem parts_a (p : Str) (h : normalizeSubPath (lit "a") = .ok p) : (split p).dropLast = [] := by
  have hroot : normalizeSubPath (lit "a") = .ok (lit "a") := by decide
  cases hroot.symm.trans h
  decide

/-- A file of the root is refused without a trace. -/
theorem refused_directories_root :
    ((largePut "a").run narrowLimits (sessionFailing .close 0 none)).2.root.dirs =
      (sessionFailing .close 0 none).root.dirs :=
  (refused_directories_iff (.single (largePut_refused (by decide +kernel)))).mpr
    (List.forall_mem_singleton.mpr (not_makes_root parts_a))

theorem dirs_ne {t t' : Node} (loc : Loc) (hbefore : t.get loc = none)
    (hafter : (t'.get loc).any Node.isDir = true) : t'.dirs ≠ t.dirs := by
  intro hsame
  obtain ⟨n,hn,hdir⟩ := (Option.any_eq_true _ _).mp hafter
  cases n with
  | dir a es =>
    have hmem : loc ∈ t.dirs := hsame ▸ ⟨a,es,hn⟩
    obtain ⟨b,bs,hget⟩ := hmem
    cases hbefore.symm.trans hget
  | file | symlink | special => cases hdir

/-- The file is too large, and the directory it would have been in is there. -/
theorem refused_put_leaves_directory :
    (largePut "a/b").Refused narrowLimits (sessionFailing .close 0 none) ∧
      ((largePut "a/b").run narrowLimits (sessionFailing .close 0 none)).2.root.dirs ≠
        (sessionFailing .close 0 none).root.dirs :=
  ⟨largePut_refused (by decide +kernel),dirs_ne [⟨[0x61],by decide⟩] rfl (by decide +kernel)⟩

end CodeExecutorApi
