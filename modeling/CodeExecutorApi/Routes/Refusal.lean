import CodeExecutorApi.Routes.Attribution
import CodeExecutorApi.Routes.Staging

/-! What a refused request to execute code leaves of the files of its session. -/
namespace CodeExecutorApi
open Python Posix Machine Session

/-- The place a filename stands for. -/
def placeOf (filename : Str) : Option Loc :=
  match normalizeSubPath filename with
  | .ok p => place (split p)
  | .error _ => none

/-- The bytes that files bring to each place, the last one for a place counting. -/
def uploaded (files : List (Str × Content)) : Loc → Option Bytes :=
  written (files.filterMap fun file => (placeOf file.1).map fun loc => (loc,file.2.body)) fun _ => none

/-- What a tree holds at a place, if that is a regular file or a symbolic link. -/
def dataAt (t : Node) (loc : Loc) : Option (FileType × Bytes) := (t.leaf loc).bind Node.data

/-- The files and links of `t` are as they were, and so is what is at the paths of the attachments. -/
def Untouched (body : List (Except (Exc AppError) Part)) (t t' : Node) : Prop :=
  ∀ loc, ((∃ file ∈ attachments body, placeOf file.1 = some loc) ∨ dataAt t loc ≠ none) →
    dataAt t' loc = dataAt t loc

/-- The attachments bring nothing that is not there already. -/
def Moot (body : List (Except (Exc AppError) Part)) (t : Node) : Prop :=
  ∀ loc bytes, uploaded (attachments body) loc = some bytes → dataAt t loc = some (.regular,bytes)

section Uploaded
variable {files : List (Str × Content)} {entries : List (Loc × Node)} {f : Loc → Option Node}

theorem uploaded_place {loc : Loc} {bytes : Bytes} (h : uploaded files loc = some bytes) :
    ∃ file ∈ files, placeOf file.1 = some loc := by
  obtain ⟨e,he,rfl⟩ := (written_eq_some h).resolve_left nofun
  obtain ⟨file,hfile,hmap⟩ := List.mem_filterMap.mp he
  obtain ⟨loc,hloc,rfl⟩ := Option.map_eq_some_iff.mp hmap
  exact ⟨file,hfile,hloc⟩

/-- Once the files took their places, their bytes are there. -/
theorem data_written (h : List.Forall₂ Placed files entries) (loc : Loc) :
    (written entries f loc).bind Node.data = match uploaded files loc with
      | some bytes => some (.regular,bytes)
      | none => (f loc).bind Node.data := by
  suffices hgen : ∀ (g : Loc → Option Bytes) (old : Loc → Option (FileType × Bytes)),
      (∀ k, (f k).bind Node.data = match g k with
        | some bytes => some (.regular,bytes)
        | none => old k) → ∀ k, (written entries f k).bind Node.data =
          match written (files.filterMap fun file =>
            (placeOf file.1).map fun loc => (loc,file.2.body)) g k with
          | some bytes => some (.regular,bytes)
          | none => old k from hgen _ (fun k => (f k).bind Node.data) (fun _ => rfl) loc
  induction h generalizing f with
  | nil => exact fun g old hg => hg
  | @cons file e files entries hplaced _ ih =>
    intro g old hg
    obtain ⟨p,b,hq,hloc,hnode⟩ := hplaced
    have hplace : placeOf file.1 = some e.1 := by
      rw [placeOf,hq]
      exact hloc
    rw [List.filterMap_cons,hplace,written_cons]
    refine ih (Function.update g e.1 (some file.2.body)) old fun k => ?_
    by_cases hk : k = e.1
    · subst k
      rw [Function.update_self,Function.update_self,hnode]
      rfl
    · rw [Function.update_of_ne hk,Function.update_of_ne hk]
      exact hg k

variable {body : List (Except (Exc AppError) Part)} {t t' : Node} {env : Environment}

theorem dataAt_eq {loc : Loc} (h : t'.leaf loc = t.leaf loc) : dataAt t' loc = dataAt t loc :=
  congrArg (Option.bind · Node.data) h

/-- Where the attachments took their places, everything is untouched only if they changed nothing. -/
theorem untouched_iff_moot (h : List.Forall₂ Placed (attachments body) entries)
    (hleaf : t'.leaf = written entries t.leaf) : Untouched body t t' ↔ Moot body t := by
  have hdata (loc : Loc) : dataAt t' loc = match uploaded (attachments body) loc with
      | some bytes => some (.regular,bytes)
      | none => dataAt t loc := by
    unfold dataAt
    rw [hleaf]
    exact data_written h loc
  constructor
  · intro hsame loc bytes hbytes
    have hkept := hsame loc (.inl (uploaded_place hbytes))
    rw [hdata,hbytes] at hkept
    exact hkept.symm
  · intro hmoot loc _
    rw [hdata]
    cases hbytes : uploaded (attachments body) loc with
    | none => rfl
    | some bytes => exact (hmoot loc bytes hbytes).symm

/-- Temporary files that were left behind touch nothing. -/
theorem untouched_of_strewn (h : Strewn env t.leaf t'.leaf)
    (hun : ∀ file ∈ attachments body, ∀ p, normalizeSubPath file.1 = .ok p → Unguessed env p) :
    Untouched body t t' := by
  intro loc hloc
  rcases h loc with hsame | ⟨hnone,dir,c,rfl,htemp⟩
  · exact dataAt_eq hsame
  · rcases hloc with ⟨file,hfile,hplace⟩ | hdata
    · unfold placeOf at hplace
      split at hplace
      · rename_i p hp
        obtain ⟨q,d,_,hd,heq⟩ := place_split hplace
        cases (List.append_inj' heq rfl).2
        exact absurd htemp (hun file hfile p hp _ hd)
      · cases hplace
    · unfold dataAt at hdata
      rw [hnone] at hdata
      exact absurd rfl hdata

end Uploaded

section Phases
variable {limits : Limits} {body : List (Except (Exc AppError) Part)} {w x : World} {c : Course}

/-- A block that commits nothing leaves temporary files at most. -/
theorem Course.Of.strewn (h : c.Of limits body w x) (hdone : c.done = []) :
    Strewn w.env w.root.leaf x.root.leaf := by
  have hrev := h.revealed
  rw [hdone,List.forall₂_nil_left_iff] at hrev
  obtain ⟨_,_,hstrewn,_⟩ := h.cleared
  rw [hrev,h.env,h.gathered.env] at hstrewn
  rcases h.gathered.clean with ⟨hbase,_⟩ | ⟨_,hlit,_⟩
  · exact hbase ▸ hstrewn
  · exact hlit.strewn.trans hstrewn

/-- A block that the request passes has put every attachment in its place. -/
theorem Course.Of.passed (h : c.Of limits body w x) (hending : c.ending = .fallsThrough) :
    List.Forall₂ Placed (attachments body) c.entries ∧
      x.root.leaf = written c.entries w.root.leaf := by
  obtain ⟨cs,_,hall,hplaced⟩ := h.placed
  obtain ⟨hleft,_,hst⟩ := h.complete hending
  refine ⟨hall hending ▸ hplaced,?_⟩
  rw [h.leaf fun hne => absurd hst hne]
  rcases h.gathered.clean with ⟨hbase,_⟩ | ⟨_,_,hstop⟩
  · rw [hbase]
  · exact absurd hleft hstop

end Phases

/-- The status of the answer, if there is one. Some exceptions are responses themselves. -/
def statusOf : Except Fault ExecuteResponse → Option ℕ
  | .ok (.mixed ..) => some 200
  | .ok (.error status _) => some status
  | .error fault =>
    match fault.exc with
    | .app (.validationError _) | .app (.invalidField _) => some 400
    | .app .requestEntityTooLarge => some 413
    | .cancelled => none
    | _ => some 500

/-- Run from `v`, podman starts the code. -/
def Host.RunsCode (host : Host) (v : World) : Prop :=
  host.openpty = none ∧ v.env.interrupt v.calls = false ∧ host.start = none

section Handling
variable (limits : Limits) (host : Host) (request : ExecuteRequest)

theorem runContainer_notRun {v : World} (h : ¬host.RunsCode v) :
    (runContainer host v).2.root = v.root ∧ ∀ result, (runContainer host v).1 ≠ .ok result := by
  unfold Host.RunsCode at h
  cases hpty : host.openpty with
  | some e =>
    simp [runContainer,hpty,hostCall,during,Program.mapError,Program.raise,bind,Program.bind,
      Except.mapError]
  | none =>
    cases hi : v.env.interrupt v.calls with
    | true =>
      cases hreader : v.env.interrupt (v.calls+1) <;> cases ho : host.output <;>
        simp [runContainer,hpty,hostCall,during,Program.mapError,Program.attempt,Os.checkpoint,hi,
          hreader,ho,Program.raise,bind,Program.bind,pure,Program.pure,World.tick,Except.mapError]
    | false =>
      cases hs : host.start with
      | some e =>
        cases hreader : v.env.interrupt (v.calls+1) <;> cases ho : host.output <;>
          simp [runContainer,hpty,hostCall,during,Program.mapError,Program.attempt,Os.checkpoint,hi,
            hs,hreader,ho,Program.raise,bind,Program.bind,pure,Program.pure,World.tick,
            Except.mapError]
      | none => exact absurd ⟨hpty,hi,hs⟩ h

theorem locked_state (w : World) : (during .locking (locked host) w).2 = w := by
  unfold locked during Program.mapError await
  cases host.registered <;> cases host.lock <;> cases host.current <;> rfl

/-- A request on a named session ends as the `try` block does. -/
theorem handleExecute_named (hm : request.multipart = true) (he : request.ephemeral = false)
    (w : World) : handleExecute limits rootDirectory host request w =
      (settled (tryBlock limits rootDirectory host request w).1,
        (tryBlock limits rootDirectory host request w).2) := by
  have htry : tryBlock limits rootDirectory host request w =
      lockedBlock limits rootDirectory host request.body w := by
    unfold tryBlock creation
    rw [he]
    rfl
  rw [htry]
  unfold handleExecute
  rw [if_neg (by simp [hm]),he]
  simp only [Bool.false_eq_true,if_false,false_and]
  have hcreated : ((pure () : Handler Unit).attempt : Handler (Except Fault Unit)) w = (.ok (.ok ()),w) :=
    rfl
  rw [Program.bind_run hcreated]
  unfold answered settled
  rcases hrun : lockedBlock limits rootDirectory host request.body w with ⟨fault | response,v⟩
  · cases he : executeError fault.exc with
    | none => simp [Program.attempt,Program.handle,hrun,he,bind,Program.bind,Program.raise]
    | some answer => simp [Program.attempt,Program.handle,hrun,he,bind,Program.bind,pure,Program.pure]
  · simp [Program.attempt,Program.handle,hrun,bind,Program.bind,pure,Program.pure]

theorem execute_eq : execute limits rootDirectory host =
    during .waiting (await host.slot .executionLimitReached) >>= fun _ =>
      during .snapshot (walkSession limits) >>= fun before =>
        runContainer host >>= afterRun limits rootDirectory before := rfl

theorem walkSession_quiet : (during .snapshot (walkSession limits)).Within World.Quiet := by
  have hwalk : (walkSession limits).Within World.Quiet :=
    Os.checkpoint_quiet.bind fun _ => .bind (fun w => .refl w) fun _ =>
      Os.checkpoint_quiet.bind fun _ => .pure _
  exact hwalk

theorem checkpoint_cancelled : (Os.checkpoint : Api Unit).Raises fun e => e = .cancelled := by
  intro w e he
  unfold Os.checkpoint at he
  split_ifs at he
  cases he
  rfl

/-- The walk is ended early by a cancellation only. -/
theorem walkSession_cancelled : (during .snapshot (walkSession limits)).Raises fun f =>
    f.exc = .cancelled := by
  refine .mapError (checkpoint_cancelled.bind fun _ => .bind ?_ fun _ =>
    checkpoint_cancelled.bind fun _ => .pure _)
  intro w e he
  cases he

theorem runContainer_raises : (runContainer host).Raises fun f =>
    Os.IsOSError f.exc ∨ f.exc = .cancelled := by
  have hcheck : (Os.checkpoint : Api Unit).Raises fun e => Os.IsOSError e ∨ e = .cancelled :=
    checkpoint_cancelled.mono fun _ => .inr
  have hcall (outcome : Option Errno) : (hostCall outcome).Raises fun e =>
      Os.IsOSError e ∨ e = .cancelled := by
    cases outcome with
    | none => exact .pure _
    | some e => exact .raise (.inl ⟨_,_,rfl⟩)
  have hcode : (during .running fun w => (.ok (),{w with root := host.code w.root})).Raises fun f =>
      Os.IsOSError f.exc ∨ f.exc = .cancelled := nofun
  have hpodman := (Program.Raises.mapError (f := Fault.mk .start) hcheck).bind fun _ =>
    (Program.Raises.mapError (f := Fault.mk .start) (hcall host.start)).bind fun _ =>
      hcode.bind fun _ => Program.Raises.mapError (f := Fault.mk .running) hcheck
  refine (Program.Raises.mapError (hcall host.openpty)).bind fun _ => .bind_of (.attempt _ _)
    (.attempt hpodman (.trivial _)) fun ended hended => .bind (.mapError (hcheck.bind fun _ => ?_))
      fun output => ?_
  · cases host.output with
    | ok output => exact .pure _
    | error e => exact .raise (.inl ⟨_,_,rfl⟩)
  · cases ended with
    | ok _ => exact .pure _
    | error fault => exact .raise hended

/-- The attachments of the request are committed, in `u`. -/
def Passed (w u : World) : Prop :=
  (during .locking (locked host) w).1 = .ok () ∧
    ∃ fields, stagingBlock limits rootDirectory request.body w = (.ok (.ok fields),u)

/-- The request is refused after that: no slot became free, or the container was not run for a reason
that is taken for an invalid path. -/
def RefusedLate (w : World) : Prop :=
  ∃ u, Passed limits host request w u ∧ (host.slot = .timeout ∨ host.slot = .granted ∧
    ∃ before v, during .snapshot (walkSession limits) u = (.ok before,v) ∧ host.Misleads v ∧
      ¬host.RunsCode v)

/-- The request is refused, its code has not run, and no commit has failed. -/
structure Refused (w : World) : Prop where
  answer : ∃ status ∈ [400,404,409,413,503],
    statusOf (handleExecute limits rootDirectory host request w).1 = some status
  notRun : ∀ v, Starts limits rootDirectory host request w v → ¬host.RunsCode v
  committed : ∀ fault, Escapes limits rootDirectory host request w fault → fault.phase ≠ .committing

/-- A refused request leaves the files of its session alone. A throwaway session is gone after a
request anyway. -/
def RefusalKeepsFiles (w : World) : Prop :=
  request.ephemeral = false → Refused limits host request w →
    Untouched request.body w.root (handleExecute limits rootDirectory host request w).2.root

section Named
variable {limits host request} {w u : World} (he : request.ephemeral = false)
include he

theorem creation_named (w : World) : creation host request w = (.ok (),w) := by
  unfold creation
  rw [he]
  rfl

theorem tryBlock_named : tryBlock limits rootDirectory host request w =
    lockedBlock limits rootDirectory host request.body w :=
  Program.bind_run (creation_named he w)

theorem tryBlock_locked (h : (during .locking (locked host) w).1 = .ok ()) :
    tryBlock limits rootDirectory host request w = (stagingBlock limits rootDirectory request.body >>=
      fun staged => match staged with
        | .ok _ => execute limits rootDirectory host
        | .error response => pure response) w := by
  rw [tryBlock_named he]
  exact Program.bind_run (Prod.ext h (locked_state host w))

theorem tryBlock_passed (h : Passed limits host request w u) :
    tryBlock limits rootDirectory host request w = execute limits rootDirectory host u := by
  obtain ⟨hlock,fields,hstaging⟩ := h
  rw [tryBlock_locked he hlock]
  exact Program.bind_run hstaging

omit he in
theorem untilStart_passed (h : Passed limits host request w u) :
    untilStart limits rootDirectory host request w =
      (during .waiting (await host.slot .executionLimitReached) >>= fun _ =>
        during .snapshot (walkSession limits) >>= fun before => pure (.ok before)) u := by
  obtain ⟨hlock,fields,hstaging⟩ := h
  exact (Program.bind_run (Prod.ext hlock (locked_state host w))).trans (Program.bind_run hstaging)

/-- Podman is called in the state that the walk before it ends in. -/
theorem starts_passed {v : World} (h : Passed limits host request w u) :
    Starts limits rootDirectory host request w v ↔ host.slot = .granted ∧
      ∃ before, during .snapshot (walkSession limits) u = (.ok before,v) := by
  have hstarts : Starts limits rootDirectory host request w v ↔
      ∃ before, untilStart limits rootDirectory host request w = (.ok (.ok before),v) := by
    constructor
    · rintro ⟨w',before,hw',hrun⟩
      rw [creation_named he] at hw'
      cases hw'
      exact ⟨before,hrun⟩
    · rintro ⟨before,hrun⟩
      exact ⟨w,before,creation_named he w,hrun⟩
  rw [hstarts,untilStart_passed h]
  cases hslot : host.slot with
  | timeout =>
    have hwait : during .waiting (await .timeout .executionLimitReached) u =
        (.error ⟨.waiting,.app .executionLimitReached⟩,u) := rfl
    simp [Program.bind_run_error hwait]
  | cancelled =>
    have hwait : during .waiting (await .cancelled .executionLimitReached) u =
        (.error ⟨.waiting,.cancelled⟩,u) := rfl
    simp [Program.bind_run_error hwait]
  | granted =>
    have hwait : during .waiting (await .granted .executionLimitReached) u = (.ok (),u) := rfl
    rw [Program.bind_run hwait]
    rcases hwalk : during .snapshot (walkSession limits) u with ⟨fault | before,v'⟩
    · simp [Program.bind_run_error hwalk]
    · simp [Program.bind_run hwalk,pure,Program.pure]

omit he in
/-- Of the exceptions that running the container ends with, only some refuse the request. -/
theorem refused_iff_misleading {fault : Fault}
    (h : Os.IsOSError fault.exc ∨ fault.exc = .cancelled) :
    (∃ status ∈ [400,404,409,413,503], statusOf (settled (.error fault)) = some status) ↔
      Misleading fault.exc := by
  constructor
  · rintro ⟨status,hstatus,hanswer⟩
    cases he : executeError fault.exc with
    | none =>
      rw [settled,he] at hanswer
      rcases h with ⟨cls,errno,hos⟩ | hcancel
      · rw [statusOf,hos] at hanswer
        cases hanswer
        simp at hstatus
      · rw [statusOf,hcancel] at hanswer
        cases hanswer
    | some response =>
      rcases h with ⟨cls,errno,hos⟩ | hcancel
      · rw [hos] at he ⊢
        exact (executeError_os he).2
      · rw [hcancel] at he
        cases he
  · intro hmislead
    refine ⟨400,by simp,?_⟩
    rw [settled,executeError_eq_invalidPath.mpr hmislead]
    rfl

/-- How a request whose attachments are committed ends if its code is not run. -/
theorem execute_notRun (h : Passed limits host request w u)
    (hrun : ∀ v, Starts limits rootDirectory host request w v → ¬host.RunsCode v) :
    ∃ fault, (execute limits rootDirectory host u).1 = .error fault ∧
      (execute limits rootDirectory host u).2.root = u.root ∧ fault.phase ≠ .committing ∧
      ((∃ status ∈ [400,404,409,413,503], statusOf (settled (.error fault)) = some status) ↔
        host.slot = .timeout ∨ host.slot = .granted ∧ ∃ before v,
          during .snapshot (walkSession limits) u = (.ok before,v) ∧ host.Misleads v ∧
            ¬host.RunsCode v) := by
  rw [execute_eq]
  cases hslot : host.slot with
  | timeout =>
    have hwait : during .waiting (await .timeout .executionLimitReached) u =
        (.error ⟨.waiting,.app .executionLimitReached⟩,u) := rfl
    rw [Program.bind_run_error hwait]
    exact ⟨_,rfl,rfl,by simp,by simp [settled,executeError,statusOf]⟩
  | cancelled =>
    have hwait : during .waiting (await .cancelled .executionLimitReached) u =
        (.error ⟨.waiting,.cancelled⟩,u) := rfl
    rw [Program.bind_run_error hwait]
    exact ⟨_,rfl,rfl,by simp,by simp [settled,executeError,statusOf]⟩
  | granted =>
    have hwait : during .waiting (await .granted .executionLimitReached) u = (.ok (),u) := rfl
    rw [Program.bind_run hwait]
    have hroot := (walkSession_quiet limits u).root
    have hcancelled := walkSession_cancelled limits u
    rcases hwalk : during .snapshot (walkSession limits) u with ⟨fault | before,v⟩
    · rw [hwalk] at hroot hcancelled
      have hexc := hcancelled fault rfl
      have hphase := during_phase .snapshot (walkSession limits) u fault (congrArg Prod.fst hwalk)
      rw [Program.bind_run_error hwalk]
      exact ⟨fault,rfl,hroot,by simp [hphase],by simp [hexc,settled,executeError,statusOf]⟩
    · rw [hwalk] at hroot
      have hno := hrun v ((starts_passed he h).mpr ⟨hslot,before,hwalk⟩)
      obtain ⟨hkept,hfails⟩ := runContainer_notRun host hno
      have hmis := runContainer_misleads host v
      have hphase := runContainer_phase host v
      have hraises := runContainer_raises host v
      rw [Program.bind_run hwalk]
      rcases hcontainer : runContainer host v with ⟨fault | result,x⟩
      · rw [hcontainer] at hkept hmis hphase hraises
        rw [Program.bind_run_error hcontainer]
        refine ⟨fault,rfl,hkept.trans hroot,?_,?_⟩
        · rcases hphase fault rfl with hp | hp <;> simp [hp]
        rw [refused_iff_misleading (hraises fault rfl)]
        constructor
        · exact fun hmislead => .inr ⟨rfl,before,v,rfl,hmis.mp ⟨fault,rfl,hmislead⟩,hno⟩
        · rintro (hslot | ⟨_,before',v',hsame,hmisleads,_⟩)
          · cases hslot
          · cases hsame
            obtain ⟨f,hf,hmislead⟩ := hmis.mpr hmisleads
            cases hf
            exact hmislead
      · exact absurd (congrArg Prod.fst hcontainer) (hfails result)

/-- A request refused by the staging block, or before it, leaves the files alone. -/
theorem untouched_of_staging (hun : ∀ file ∈ attachments request.body, ∀ p,
      normalizeSubPath file.1 = .ok p → Unguessed w.env p)
    (hpassed : ¬∃ u, Passed limits host request w u)
    (hcommitted : ∀ fault, (tryBlock limits rootDirectory host request w).1 = .error fault →
      fault.phase ≠ .committing) :
    Untouched request.body w.root (tryBlock limits rootDirectory host request w).2.root := by
  cases hlock : (during .locking (locked host) w).1 with
  | error fault =>
    have hrun : during .locking (locked host) w = (.error fault,w) :=
      Prod.ext hlock (locked_state host w)
    rw [tryBlock_named he,lockedBlock,Program.bind_run_error hrun]
    exact fun _ _ => rfl
  | ok _ =>
    have hends := stagingBlock_ends limits hun
    rw [tryBlock_locked he hlock] at hcommitted ⊢
    rcases hrun : stagingBlock limits rootDirectory request.body w with ⟨r,x⟩
    obtain ⟨c,rfl,hof⟩ := (Program.ends_of_run hrun).mp hends
    have hdone (hnot : c.ending ≠ .fallsThrough)
        (hno : ∀ e, c.ending ≠ .raises ⟨.committing,e⟩) : Untouched request.body w.root x.root := by
      refine untouched_of_strewn (hof.strewn ?_) hun
      rcases hof.unfinished with hdone | hfalls | ⟨e,hraises⟩
      · exact hdone
      · exact absurd hfalls hnot
      · exact absurd hraises (hno e)
    cases hending : c.ending with
    | fallsThrough =>
      rw [hending] at hrun
      exact absurd ⟨x,hlock,c.fields,hrun⟩ hpassed
    | returns response =>
      rw [hending] at hrun hdone
      rw [Program.bind_run hrun]
      exact hdone (by simp) (by simp)
    | raises fault =>
      rw [hending] at hrun hdone
      rw [Program.bind_run_error hrun] at hcommitted ⊢
      refine hdone (by simp) fun e heq => hcommitted fault rfl ?_
      rw [(Left.raises.inj heq)]

end Named

variable {request} in
/-- After the commit loop everything is untouched only if the attachments changed nothing. -/
theorem passed_untouched_iff {w u : World} (hun : ∀ file ∈ attachments request.body, ∀ p,
      normalizeSubPath file.1 = .ok p → Unguessed w.env p) (h : Passed limits host request w u) :
    Untouched request.body w.root u.root ↔ Moot request.body w.root := by
  obtain ⟨_,fields,hrun⟩ := h
  obtain ⟨c,hr,hof⟩ := (Program.ends_of_run hrun).mp (stagingBlock_ends limits hun)
  have hending : c.ending = .fallsThrough := by
    cases hending : c.ending with
    | fallsThrough => rfl
    | returns response =>
      rw [hending] at hr
      cases hr
    | raises fault =>
      rw [hending] at hr
      cases hr
  obtain ⟨hplaced,hleaf⟩ := hof.passed hending
  exact untouched_iff_moot hplaced hleaf

variable {request} in
/-- A refused request leaves the files of its session alone, unless it is refused after the
attachments were committed and they change something. -/
theorem refusalKeepsFiles_iff {w : World} (hun : ∀ file ∈ attachments request.body, ∀ p,
      normalizeSubPath file.1 = .ok p → Unguessed w.env p) :
    RefusalKeepsFiles limits host request w ↔ ¬(request.ephemeral = false ∧ request.multipart = true ∧
      RefusedLate limits host request w ∧ ¬Moot request.body w.root) := by
  have hnamed := fun hm he => handleExecute_named limits host request hm he w
  constructor
  · rintro hkeeps ⟨he,hm,⟨u,hpassed,hlate⟩,hmoot⟩
    have hnotRun (v : World) (hv : Starts limits rootDirectory host request w v) :
        ¬host.RunsCode v := by
      obtain ⟨hslot,before,hwalk⟩ := (starts_passed he hpassed).mp hv
      rcases hlate with hslot' | ⟨_,before',v',hwalk',_,hno⟩
      · rw [hslot] at hslot'
        cases hslot'
      · rw [hwalk] at hwalk'
        cases hwalk'
        exact hno
    obtain ⟨fault,hfault,hroot,hphase,hiff⟩ := execute_notRun he hpassed hnotRun
    obtain ⟨status,hstatus,hanswer⟩ := hiff.mpr hlate
    have htry := tryBlock_passed he hpassed
    have hrefused : Refused limits host request w := by
      refine ⟨⟨status,hstatus,?_⟩,hnotRun,fun fault' hescapes => ?_⟩
      · rw [hnamed hm he,htry,hfault,hanswer]
      · obtain ⟨_,hfault'⟩ := hescapes
        rw [htry,hfault] at hfault'
        cases hfault'
        exact hphase
    have hsame := hkeeps he hrefused
    rw [hnamed hm he,htry,hroot] at hsame
    exact hmoot ((passed_untouched_iff limits host hun hpassed).mp hsame)
  · intro hgood he hrefused
    cases hm : request.multipart with
    | false =>
      unfold handleExecute
      rw [if_pos hm]
      exact fun _ _ => rfl
    | true =>
      obtain ⟨status,hstatus,hanswer⟩ := hrefused.answer
      rw [hnamed hm he] at hanswer ⊢
      by_cases hpassed : ∃ u, Passed limits host request w u
      · obtain ⟨u,hpassed⟩ := hpassed
        obtain ⟨fault,hfault,hroot,_,hiff⟩ := execute_notRun he hpassed hrefused.notRun
        rw [tryBlock_passed he hpassed] at hanswer ⊢
        rw [hroot]
        rw [hfault] at hanswer
        have hlate := hiff.mp ⟨status,hstatus,hanswer⟩
        refine (passed_untouched_iff limits host hun hpassed).mpr ?_
        by_contra hmoot
        exact hgood ⟨he,hm,⟨u,hpassed,hlate⟩,hmoot⟩
      · exact untouched_of_staging he hun hpassed fun fault hfault =>
          hrefused.committed fault ⟨hm,hfault⟩

end Handling

/-- No slot becomes free within the wait. -/
def fullyLoaded : Host := {withoutPodman with slot := .timeout, start := none}

/-- A request with a file. -/
def printOneFile : ExecuteRequest := {printOne with body := printOne.body ++ [.ok (filePart "a" 1)]}

/-- A session with the same file. -/
def sameFileSession : World :=
  {emptySession with
    root := .dir ⟨0,dirMode,0,0,0⟩ [(⟨[0x61],isName_a⟩,.file ⟨1,tempMode,0,0,0⟩ [1])]}

theorem printOneFile_attachments : attachments printOneFile.body = [(lit "a",.bytes [1])] := rfl

/-- The request is refused for lack of a slot, and the file that it committed was there before. -/
theorem refusal_keepsFiles_sameFile :
    (handleExecute exampleLimits rootDirectory fullyLoaded printOneFile sameFileSession).1 =
        .ok (.error 503 (lit "Execution capacity reached")) ∧
      RefusalKeepsFiles exampleLimits fullyLoaded printOneFile sameFileSession := by
  refine ⟨by decide +kernel,(refusalKeepsFiles_iff exampleLimits fullyLoaded
    (fun file hfile p hp c hc => ?_)).mpr ?_⟩
  · rw [printOneFile_attachments,List.mem_singleton] at hfile
    have hpath : normalizeSubPath (lit "a") = .ok (lit "a") := by decide
    rw [hfile,hpath] at hp
    cases hp
    rintro ⟨k,hk⟩
    have hne : nameOf (lastPart (lit "a")) ≠ nameOf (tempPrefix ++ []) := by decide
    exact hne (hc.trans hk.symm)
  · rintro ⟨_,_,_,hmoot⟩
    refine hmoot fun loc bytes hbytes => ?_
    obtain ⟨file,hfile,hplace⟩ := uploaded_place hbytes
    rw [printOneFile_attachments,List.mem_singleton] at hfile
    have ha : placeOf (lit "a") = some [⟨[0x61],isName_a⟩] := by decide
    rw [hfile,ha] at hplace
    cases hplace
    have hone : uploaded (attachments printOneFile.body) [⟨[0x61],isName_a⟩] = some [1] := by
      decide +kernel
    rw [hone] at hbytes
    cases hbytes
    rfl

/-- No slot is free after an attachment was committed where nothing was. -/
theorem not_refusalKeepsFiles {limits : Limits} {host : Host} {request : ExecuteRequest} {w : World}
    (loc : Loc) (he : request.ephemeral = false) (hm : request.multipart = true)
    (hlock : (during .locking (locked host) w).1 = .ok ()) (hslot : host.slot = .timeout)
    (hpasses : (stagingBlock limits rootDirectory request.body w).1.toOption.any Except.isOk = true)
    (hplace : (attachments request.body).any (fun file => placeOf file.1 = some loc) = true)
    (hbefore : dataAt w.root loc = none)
    (hafter : (dataAt (stagingBlock limits rootDirectory request.body w).2.root loc).isSome = true) :
    ¬RefusalKeepsFiles limits host request w := by
  intro h
  rcases hrun : stagingBlock limits rootDirectory request.body w with ⟨_ | _ | fields,u⟩ <;>
    rw [hrun] at hpasses hafter
  · cases hpasses
  · cases hpasses
  have hpassed : Passed limits host request w u := ⟨hlock,fields,hrun⟩
  have hexecute : execute limits rootDirectory host u =
      (.error ⟨.waiting,.app .executionLimitReached⟩,u) := by
    rw [execute_eq,hslot]
    rfl
  have htry := (tryBlock_passed he hpassed).trans hexecute
  have hnamed := handleExecute_named limits host request hm he w
  have hrefused : Refused limits host request w := by
    refine ⟨⟨503,by simp,?_⟩,fun v hv => ?_,
      fun fault hescapes => ?_⟩
    · rw [hnamed,htry]
      rfl
    · rw [((starts_passed he hpassed).mp hv).1] at hslot
      cases hslot
    · obtain ⟨_,hfault⟩ := hescapes
      rw [htry] at hfault
      cases hfault
      simp
  obtain ⟨file,hfile,hloc⟩ := List.any_eq_true.mp hplace
  have hsame := h he hrefused loc (.inl ⟨file,hfile,of_decide_eq_true hloc⟩)
  rw [hnamed,htry,hbefore] at hsame
  rw [hsame] at hafter
  cases hafter

/-- The request is refused for lack of a slot, and its attachment is in the session. -/
theorem refused_attachment_visible :
    ¬RefusalKeepsFiles exampleLimits fullyLoaded printOneFile emptySession :=
  not_refusalKeepsFiles [⟨[0x61],by decide⟩] rfl rfl rfl rfl (by decide +kernel)
    (by decide +kernel) rfl (by decide +kernel)

end CodeExecutorApi
