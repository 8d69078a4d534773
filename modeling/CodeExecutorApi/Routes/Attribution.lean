import CodeExecutorApi.Routes.Execute

/-! Which faults of a request to execute code are answered as if an attachment path were invalid. -/
namespace CodeExecutorApi
open Python Posix Machine

/-- The errnos whose exceptions the handler takes for an invalid path. -/
def misleading (e : Errno) : Bool := e = .enoent ∨ e = .eisdir

/-- Such an exception. -/
def Misleading (e : Exc AppError) : Prop :=
  ∃ errno, e = .os .fileNotFound errno ∨ e = .os .isADirectory errno

def invalidPath : ExecuteResponse := .error 400 (lit "Invalid attachment path")

def ExecuteResponse.isClientError : ExecuteResponse → Bool
  | .error status _ => 400 ≤ status ∧ status < 500
  | .mixed .. => false

/-- The phases after the commit loop. -/
def Phase.afterCommit : Phase → Bool
  | .waiting | .snapshot | .start | .running | .collection | .response => true
  | _ => false

/-- Reading a request body raises no error of the file system. -/
def Content.Genuine (content : Content) : Prop :=
  ∀ e, .error e ∈ prepareReader content → ¬Misleading e

/-- The same of the parts of a body. -/
def ExecuteRequest.Genuine (request : ExecuteRequest) : Prop :=
  (∀ e, .error e ∈ request.body → ¬Misleading e) ∧
    ∀ part : Part, .ok part ∈ request.body → part.content.Genuine

theorem misleading_iff (e : Errno) : Misleading (Os.oserror e) ↔ misleading e = true := by
  cases e <;> simp [Misleading,Os.oserror,errorClass,misleading]

theorem executeError_eq_invalidPath {e : Exc AppError} :
    executeError e = some invalidPath ↔ Misleading e := by
  cases e with
  | os cls errno => cases cls <;> simp [executeError,invalidPath,Misleading]
  | app e => cases e <;> simp [executeError,invalidPath,Misleading]
  | valueError | unicodeEncodeError | cancelled => simp [executeError,Misleading]

theorem executeError_os {cls : OSErrorClass} {errno : Option Errno} {response : ExecuteResponse}
    (h : executeError (.os cls errno) = some response) :
    response = invalidPath ∧ Misleading (.os cls errno) := by
  cases cls <;> simp [executeError,invalidPath,Misleading] at h ⊢ <;> exact h.symm

/-- The fault of an attachment, if it can be taken for one. -/
def Fault.Fair (f : Fault) : Prop :=
  Misleading f.exc → f.phase = .staging ∨ f.phase = .committing

/-- A block that is not left as if a path were invalid, or because of an attachment. -/
def Left.Fair : Left → Prop
  | .fallsThrough => True
  | .returns response => response ≠ invalidPath
  | .raises fault => fault.Fair

theorem during_fair {α : Type} {phase : Phase} {x : Api α} (hx : x.Raises fun e => ¬Misleading e) :
    (during phase x).Raises Fault.Fair :=
  .mapError (hx.mono fun _ he h => absurd h he)

theorem during_attachment {α : Type} {phase : Phase} (h : phase = .staging ∨ phase = .committing)
    (x : Api α) : (during phase x).Raises Fault.Fair :=
  .mapError fun _ _ _ _ => h

theorem not_misleading_app (e : AppError) : ¬Misleading (.app e) := by
  rintro ⟨errno,h | h⟩ <;> cases h

theorem not_misleading_cancelled : ¬Misleading .cancelled := by
  rintro ⟨errno,h | h⟩ <;> cases h

theorem checkpoint_raises : (Os.checkpoint : Api Unit).Raises fun e => ¬Misleading e := by
  intro w e he
  unfold Os.checkpoint at he
  split_ifs at he
  cases he
  exact not_misleading_cancelled

section Reading
variable {part : Part}

theorem readLoop_raises {maxSize : ℕ} {written : Bytes} {reads : List (Except (Exc AppError) Bytes)}
    (h : ∀ e, .error e ∈ reads → ¬Misleading e) :
    (readLoop maxSize written reads).Raises fun e => ¬Misleading e := by
  induction reads generalizing written with
  | nil => exact .pure _
  | cons read reads ih =>
    have hrest := fun e he => h e (List.mem_cons_of_mem _ he)
    refine checkpoint_raises.bind fun _ => ?_
    cases read with
    | error e => exact .raise (h e List.mem_cons_self)
    | ok chunk =>
      cases chunk with
      | nil => exact .pure _
      | cons b chunk =>
        dsimp only
        split_ifs
        · exact .raise (not_misleading_app _)
        · exact ih hrest

theorem readTextPart_raises {maxSize : ℕ} (h : part.content.Genuine) :
    (readTextPart part maxSize).Raises fun e => ¬Misleading e := by
  refine (readLoop_raises h).bind fun content => ?_
  cases part.decode content with
  | error e =>
    cases e with
    | encoding => exact .raise (not_misleading_app _)
    | valueError => exact .raise nofun
  | ok text => exact .pure _

theorem readLanguage_raises (h : part.content.Genuine) :
    (readLanguage part).Raises fun e => ¬Misleading e := by
  refine (readTextPart_raises h).handle_of fun e he => ?_
  split
  · exact .raise (not_misleading_app _)
  · exact .raise he

theorem unsupported_ne_invalidPath (name : Str) :
    ExecuteResponse.error 400 (lit "Unsupported multipart field: " ++ name) ≠ invalidPath := by
  intro h
  have hmessage := (ExecuteResponse.error.inj h).2
  have hhead := congrArg List.head? hmessage
  have hfirst : (lit "Unsupported multipart field: ").head? = some 0x55 := by decide
  rw [List.head?_append,hfirst,Option.some_or] at hhead
  exact absurd hhead (by decide)

variable (limits : Limits) (workDirectory : Str) (fields : Fields)

theorem readPart_fair (h : part.content.Genuine) :
    (readPart limits workDirectory fields part).Raises Fault.Fair ∧
      (readPart limits workDirectory fields part).Returns fun r =>
        ∀ response, r = .error response → response ≠ invalidPath := by
  unfold readPart
  split_ifs
  · exact ⟨(during_fair (readLanguage_raises h)).bind fun _ => .pure _,
      (Program.Returns.trivial _).bind fun _ _ => .pure nofun⟩
  · exact ⟨(during_fair (readTextPart_raises h)).bind fun _ => .pure _,
      (Program.Returns.trivial _).bind fun _ _ => .pure nofun⟩
  · cases part.filename with
    | none =>
      refine ⟨.pure _,.pure fun response hr => ?_⟩
      cases hr
      decide
    | some filename =>
      exact ⟨(during_attachment (.inl rfl) _).bind fun _ => .pure _,
        (Program.Returns.trivial _).bind fun _ _ => .pure nofun⟩
  · refine ⟨.pure _,.pure fun response hr => ?_⟩
    cases hr
    exact unsupported_ne_invalidPath _

theorem readParts_fair {body : List (Except (Exc AppError) Part)}
    (herror : ∀ e, .error e ∈ body → ¬Misleading e)
    (hparts : ∀ part : Part, .ok part ∈ body → part.content.Genuine) :
    (readParts limits workDirectory fields body).Raises (fun _ => False) ∧
      (readParts limits workDirectory fields body).Returns fun r => r.2.Fair := by
  induction body generalizing fields with
  | nil => exact ⟨.pure _,.pure trivial⟩
  | cons read body ih =>
    cases read with
    | error e => exact ⟨.pure _,.pure fun h => absurd h (herror e List.mem_cons_self)⟩
    | ok part =>
      have hpart := readPart_fair limits workDirectory fields (hparts part List.mem_cons_self)
      have hrest := fun fields => ih fields (fun e he => herror e (List.mem_cons_of_mem _ he))
        fun part hp => hparts part (List.mem_cons_of_mem _ hp)
      constructor
      · refine (Program.Raises.attempt _ _).bind fun r => ?_
        rcases r with fault | response | fields
        · exact .pure _
        · exact .pure _
        · exact (hrest fields).1
      · refine (Program.Returns.attempt hpart.1 hpart.2).bind fun r hr => ?_
        rcases r with fault | response | fields
        · exact .pure hr
        · exact .pure (hr response rfl)
        · exact (hrest fields).2

theorem malformed_fair {left : Left} (h : left.Fair) : (malformed left).Fair := by
  unfold malformed
  split
  all_goals first | exact h | exact fun h => absurd h (not_misleading_app _)

theorem commitAll_fair (staged : List (Str × Str)) :
    (commitAll workDirectory staged).Raises (fun _ => False) ∧
      (commitAll workDirectory staged).Returns fun r => r.2.Fair := by
  induction staged with
  | nil => exact ⟨.pure _,.pure trivial⟩
  | cons st staged ih =>
    constructor
    · refine (Program.Raises.attempt _ _).bind fun r => ?_
      cases r with
      | ok => exact ih.1
      | error fault => exact .pure _
    · refine (Program.Returns.attempt (during_attachment (.inr rfl) _)
        (Program.Returns.trivial _)).bind fun r hr => ?_
      cases r with
      | ok => exact ih.2
      | error fault => exact .pure hr

theorem validateAndCommit_fair {left : Left} (h : left.Fair) :
    (validateAndCommit workDirectory fields left).Raises (fun _ => False) ∧
      (validateAndCommit workDirectory fields left).Returns fun r => r.2.Fair := by
  cases left with
  | returns | raises => exact ⟨.pure _,.pure h⟩
  | fallsThrough =>
    have hinvalid (e : InvalidField) :
        (Left.raises ⟨.validation,.app (.invalidField e)⟩).Fair :=
      fun h => absurd h (not_misleading_app _)
    unfold validateAndCommit
    dsimp only
    split
    · exact ⟨.pure _,.pure (hinvalid _)⟩
    · exact ⟨.pure _,.pure (hinvalid _)⟩
    · exact commitAll_fair workDirectory fields.staged

theorem discardAll_fair (staged : List (Str × Str)) :
    (discardAll workDirectory staged).Raises Fault.Fair := by
  induction staged with
  | nil => exact .pure _
  | cons st staged ih => exact (during_attachment (.inr rfl) _).bind fun _ => ih

theorem stagingBlock_fair {request : ExecuteRequest} (h : request.Genuine) :
    (stagingBlock limits workDirectory request.body).Raises Fault.Fair ∧
      (stagingBlock limits workDirectory request.body).Returns fun r =>
        ∀ response, r = .error response → response ≠ invalidPath := by
  have hread := readParts_fair limits workDirectory ⟨none,none,[]⟩ h.1 h.2
  constructor
  · refine (hread.1.mono nofun).bind_of hread.2 fun r hr => ?_
    obtain ⟨fields,left⟩ := r
    have hcommit := validateAndCommit_fair workDirectory fields (malformed_fair hr)
    refine (hcommit.1.mono nofun).bind_of hcommit.2 fun r hr => ?_
    obtain ⟨staged,left⟩ := r
    refine (discardAll_fair workDirectory staged).bind fun _ => ?_
    cases left with
    | fallsThrough | returns => exact .pure _
    | raises fault => exact .raise hr
  · refine hread.2.bind fun r hr => ?_
    obtain ⟨fields,left⟩ := r
    have hcommit := validateAndCommit_fair workDirectory fields (malformed_fair hr)
    refine hcommit.2.bind fun r hr => ?_
    obtain ⟨staged,left⟩ := r
    refine (Program.Returns.trivial _).bind fun _ _ => ?_
    cases left with
    | fallsThrough => exact .pure nofun
    | returns response =>
      refine .pure fun response' hr' => ?_
      cases hr'
      exact hr
    | raises fault => exact .raise _

end Reading

section Handling
variable (limits : Limits) (workDirectory : Str) (host : Host) (request : ExecuteRequest)

/-- The creation of a throwaway session. -/
def creation : Handler Unit :=
  if request.ephemeral then during .creation (create host) else pure ()

/-- The `try` block. -/
def tryBlock : Handler ExecuteResponse := do
  creation host request
  lockedBlock limits workDirectory host request.body

/-- The part of it before podman is called. -/
def untilStart : Handler (Except ExecuteResponse (Dict Str StatResult)) := do
  during .locking (locked host)
  let staged ← stagingBlock limits workDirectory request.body
  match staged with
  | .error response => pure (.error response)
  | .ok _ =>
    during .waiting (await host.slot .executionLimitReached)
    let before ← during .snapshot (walkSession limits)
    return .ok before

/-- The part after the run. -/
def afterRun (before : Dict Str StatResult) (result : ExecutionResult) : Handler ExecuteResponse := do
  let after ← during .collection (walkSession limits)
  let changes := collectChanges (.init before) after
  let (payloads,omittedFiles) ← during .response (openPayloads limits workDirectory [] [] changes.1)
  return .mixed result changes.2 omittedFiles payloads

theorem lockedBlock_eq :
    lockedBlock limits workDirectory host request.body =
      untilStart limits workDirectory host request >>= fun r =>
        match r with
        | .error response => pure response
        | .ok before => runContainer host >>= afterRun limits workDirectory before := by
  unfold lockedBlock untilStart execute
  simp only [Program.bind_bind]
  congr 1
  funext _
  congr 1
  funext staged
  cases staged with
  | error response => rfl
  | ok fields => simp only [Program.bind_bind]; rfl

theorem await_raises (wait : Wait) (onTimeout : AppError) :
    (await wait onTimeout).Raises fun e => ¬Misleading e := by
  cases wait with
  | granted => exact .pure _
  | timeout => exact .raise (not_misleading_app _)
  | cancelled => exact .raise not_misleading_cancelled

theorem locked_raises : (locked host).Raises fun e => ¬Misleading e := by
  unfold locked
  by_cases h : host.registered = false
  · rw [if_pos h]
    exact .raise (not_misleading_app _)
  · rw [if_neg h]
    refine (await_raises _ _).bind fun _ => ?_
    split_ifs
    · exact .raise (not_misleading_app _)
    · exact .pure _

theorem walkSession_raises : (walkSession limits).Raises fun e => ¬Misleading e := by
  refine checkpoint_raises.bind fun _ => .bind ?_ fun _ => checkpoint_raises.bind fun _ => .pure _
  intro w e he
  cases he

theorem openPayloads_raises (subPaths : List Str) (payloads : List Payload)
    (omittedFiles : List Str) :
    (openPayloads limits workDirectory payloads omittedFiles subPaths).Raises
      fun e => ¬Misleading e := by
  induction subPaths generalizing payloads omittedFiles with
  | nil => exact .pure _
  | cons subPath subPaths ih =>
    unfold openPayloads
    split_ifs
    · exact ih _ _
    · refine (Program.Raises.attempt _ _).bind fun outcome => ?_
      split
      · exact ih _ _
      · exact ih _ _
      · exact ih _ _
      · rename_i hos _
        refine .raise ?_
        rintro ⟨errno,rfl | rfl⟩ <;> exact absurd rfl (hos _ _)

theorem afterRun_raises (before : Dict Str StatResult) (result : ExecutionResult) :
    (afterRun limits workDirectory before result).Raises fun f => ¬Misleading f.exc := by
  refine .bind (.mapError (walkSession_raises limits)) fun _ => .bind (.mapError ?_) fun _ => .pure _
  exact openPayloads_raises limits workDirectory _ _ _

theorem afterRun_returns (before : Dict Str StatResult) (result : ExecutionResult) :
    (afterRun limits workDirectory before result).Returns fun r => r ≠ invalidPath :=
  (Program.Returns.trivial _).bind fun _ _ => (Program.Returns.trivial _).bind fun _ _ =>
    .pure nofun

variable {request} in
theorem untilStart_fair (h : request.Genuine) :
    (untilStart limits workDirectory host request).Raises Fault.Fair ∧
      (untilStart limits workDirectory host request).Returns fun r =>
        ∀ response, r = .error response → response ≠ invalidPath := by
  have hblock := stagingBlock_fair limits workDirectory h
  constructor
  · refine (during_fair (locked_raises host)).bind fun _ => hblock.1.bind fun staged => ?_
    cases staged with
    | error response => exact .pure _
    | ok fields =>
      exact (during_fair (await_raises _ _)).bind fun _ =>
        (during_fair (walkSession_raises limits)).bind fun _ => .pure _
  · refine (Program.Returns.trivial _).bind fun _ _ => hblock.2.bind fun staged hstaged => ?_
    cases staged with
    | error response =>
      refine .pure fun response' hr => ?_
      cases hr
      exact hstaged response rfl
    | ok fields =>
      exact (Program.Returns.trivial _).bind fun _ _ => (Program.Returns.trivial _).bind fun _ _ =>
        .pure nofun

/-- The number of the await of the terminal's reader, for a run that begins in `v`. -/
def Host.readerAwait (v : World) : ℕ :=
  if v.env.interrupt v.calls = false ∧ host.start = none then v.calls+2 else v.calls+1

/-- Run from `v`, the terminal or podman fails with an error that is taken for an invalid path, as
without a `podman` executable: opening the terminal, reading it, or starting podman. -/
def Host.Misleads (v : World) : Prop :=
  (∃ e, host.openpty = some e ∧ misleading e) ∨
    host.openpty = none ∧ v.env.interrupt (host.readerAwait v) = false ∧
      ((∃ e, host.output = .error e ∧ misleading e) ∨
        (∃ output, host.output = .ok output) ∧ v.env.interrupt v.calls = false ∧
          ∃ e, host.start = some e ∧ misleading e)

theorem runContainer_misleads (v : World) :
    (∃ f, (runContainer host v).1 = .error f ∧ Misleading f.exc) ↔ host.Misleads v := by
  unfold Host.Misleads Host.readerAwait
  cases hpty : host.openpty with
  | some e =>
    simp [runContainer,hpty,hostCall,during,Program.mapError,Program.raise,bind,Program.bind,
      Except.mapError,misleading_iff]
  | none =>
    cases hi : v.env.interrupt v.calls with
    | true =>
      -- podman is not started, and only the reader can fail
      cases hreader : v.env.interrupt (v.calls+1) <;> cases ho : host.output <;>
        simp [runContainer,hpty,hostCall,during,Program.mapError,Program.attempt,Os.checkpoint,hi,
          hreader,ho,Program.raise,bind,Program.bind,pure,Program.pure,World.tick,Except.mapError,
          misleading_iff,not_misleading_cancelled]
    | false =>
      cases hs : host.start with
      | some e =>
        cases hreader : v.env.interrupt (v.calls+1) <;> cases ho : host.output <;>
          simp [runContainer,hpty,hostCall,during,Program.mapError,Program.attempt,Os.checkpoint,hi,
            hs,hreader,ho,Program.raise,bind,Program.bind,pure,Program.pure,World.tick,
            Except.mapError,misleading_iff,not_misleading_cancelled]
      | none =>
        cases hrun : v.env.interrupt (v.calls+1) <;> cases hreader : v.env.interrupt (v.calls+2) <;>
          cases ho : host.output <;>
          simp [runContainer,hpty,hostCall,during,Program.mapError,Program.attempt,Os.checkpoint,hi,
            hs,hrun,hreader,ho,Program.raise,bind,Program.bind,pure,Program.pure,World.tick,
            Except.mapError,misleading_iff,not_misleading_cancelled]

theorem during_phase {α : Type} (phase : Phase) (x : Api α) :
    (during phase x).Raises fun f => f.phase = phase := .mapError fun _ _ _ => rfl

theorem creation_phase : (creation host request).Raises fun f => f.phase = .creation := by
  unfold creation
  split
  · exact during_phase _ _
  · exact .pure _

theorem runContainer_phase :
    (runContainer host).Raises fun f => f.phase = .start ∨ f.phase = .running := by
  have hstart {α : Type} (x : Api α) :
      (during .start x).Raises fun f => f.phase = .start ∨ f.phase = .running :=
    (during_phase _ _).mono fun _ => .inl
  have hrunning {α : Type} (x : Api α) :
      (during .running x).Raises fun f => f.phase = .start ∨ f.phase = .running :=
    (during_phase _ _).mono fun _ => .inr
  have hrun := (hstart Os.checkpoint).bind fun _ => (hstart (hostCall host.start)).bind fun _ =>
    (hrunning fun w => (.ok (),{w with root := host.code w.root})).bind fun _ =>
      hrunning Os.checkpoint
  refine (hstart _).bind fun _ => .bind_of (.attempt _ _)
    (.attempt hrun (.trivial _)) fun ended hended => (hrunning _).bind fun output => ?_
  cases ended with
  | ok _ => exact .pure _
  | error fault => exact .raise hended

/-- The request comes to starting a container, in the state `v`. -/
def Starts (w v : World) : Prop :=
  ∃ w' before, creation host request w = (.ok (),w') ∧
    untilStart limits workDirectory host request w' = (.ok (.ok before),v)

/-- The misattributed fault: a throwaway session could not be made for lack of a directory, or the
container could not be run. -/
def Misattributed (w : World) : Prop :=
  request.ephemeral ∧ host.full = false ∧ (∃ e, host.mkdtemp = some e ∧ misleading e) ∨
    ∃ v, Starts limits workDirectory host request w v ∧ host.Misleads v

theorem creation_raises (w : World) :
    (∃ f, (creation host request w).1 = .error f ∧ Misleading f.exc) ↔
      request.ephemeral ∧ host.full = false ∧ ∃ e, host.mkdtemp = some e ∧ misleading e := by
  unfold creation
  cases request.ephemeral with
  | false => simp [pure,Program.pure]
  | true =>
    cases hfull : host.full with
    | true =>
      simp [during,Program.mapError,create,hfull,Program.raise_bind,Program.raise,Except.mapError,
        not_misleading_app]
    | false =>
      cases hdir : host.mkdtemp with
      | some e =>
        simp [during,Program.mapError,create,hfull,hdir,hostCall,Program.raise_bind,Program.raise,
          Except.mapError,misleading_iff]
      | none =>
        have hrest : (create host).Raises fun e => ¬Misleading e := by
          unfold create
          rw [hfull,hdir]
          refine .bind (.pure ()) fun _ => ?_
          split
          · exact checkpoint_raises
          · exact .raise (not_misleading_app _)
        have hfair : (during .creation (create host)).Raises fun f => ¬Misleading f.exc :=
          .mapError hrest
        simp only [reduceCtorEq,false_and,exists_false,and_false,iff_false]
        rintro ⟨f,hf,hmis⟩
        exact hfair w f hf hmis

variable {request} in
theorem tryBlock_misattributed (h : request.Genuine) (w : World) :
    (∃ f, (tryBlock limits workDirectory host request w).1 = .error f ∧ Misleading f.exc ∧
        ¬(f.phase = .staging ∨ f.phase = .committing)) ↔
      Misattributed limits workDirectory host request w := by
  have huntil := untilStart_fair limits workDirectory host h
  unfold tryBlock
  simp only [Program.bind_error_iff,lockedBlock_eq]
  constructor
  · rintro ⟨f,hcreate | ⟨⟨⟩,w',hw',hlater | ⟨r,v,hv,hrun⟩⟩,hmis,hphase⟩
    · exact .inl ((creation_raises host request w).mp ⟨f,hcreate,hmis⟩)
    · exact absurd (huntil.1 w' f hlater hmis) hphase
    · cases r with
      | error response => cases hrun
      | ok before =>
        refine .inr ⟨v,⟨w',before,hw',hv⟩,?_⟩
        rw [Program.bind_error_iff] at hrun
        rcases hrun with hrun | ⟨result,v',hv',hafter⟩
        · exact (runContainer_misleads host v).mp ⟨f,hrun,hmis⟩
        · exact absurd hmis (afterRun_raises limits workDirectory before result v' f hafter)
  · rintro (hcreate | ⟨v,⟨w',before,hw',hv⟩,hmis⟩)
    · obtain ⟨f,hf,hmis⟩ := (creation_raises host request w).mpr hcreate
      refine ⟨f,.inl hf,hmis,?_⟩
      rw [creation_phase host request w f hf]
      decide
    · obtain ⟨f,hf,hmis⟩ := (runContainer_misleads host v).mpr hmis
      refine ⟨f,.inr ⟨(),w',hw',.inr ⟨.ok before,v,hv,?_⟩⟩,hmis,?_⟩
      · exact Program.bind_error_iff.mpr (.inl hf)
      · rcases runContainer_phase host v f hf with hphase | hphase <;> rw [hphase] <;> decide

variable {request} in
theorem tryBlock_returns (h : request.Genuine) :
    (tryBlock limits workDirectory host request).Returns fun r => r ≠ invalidPath := by
  unfold tryBlock
  rw [lockedBlock_eq]
  refine (Program.Returns.trivial _).bind fun _ _ =>
    (untilStart_fair limits workDirectory host h).2.bind fun r hr => ?_
  cases r with
  | error response => exact .pure (hr response rfl)
  | ok before =>
    exact (Program.Returns.trivial _).bind fun result _ => afterRun_returns limits workDirectory _ _

/-- What the `except` clauses make of the way the `try` block ends. -/
def settled : Except Fault ExecuteResponse → Except Fault ExecuteResponse
  | .ok response => .ok response
  | .error fault =>
    match executeError fault.exc with
    | some response => .ok response
    | none => .error fault

/-- The `finally` block does not keep the answer of the others from being sent. -/
def Released (w : World) : Prop :=
  request.ephemeral → (∃ w', creation host request w = (.ok (),w')) → host.delete = .granted

/-- The `try` block of a session that was or was not created. -/
def afterCreation (created : Except Fault Unit) : Handler ExecuteResponse :=
  match created with
  | .ok () => lockedBlock limits workDirectory host request.body
  | .error fault => .raise fault

theorem tryBlock_fst {created : Except Fault Unit} {w w' : World}
    (h : creation host request w = (created,w')) :
    (tryBlock limits workDirectory host request w).1 =
      (afterCreation limits workDirectory host request created w').1 := by
  change ((creation host request).bind _ w).1 = _
  unfold Program.bind
  rw [h]
  cases created <;> rfl

theorem answered_fst (created : Except Fault Unit) (w : World) :
    (answered limits workDirectory host created request.body w).1 =
      settled (afterCreation limits workDirectory host request created w).1 := by
  change ((afterCreation limits workDirectory host request created).handle _ w).1 = _
  unfold Program.handle settled
  rcases afterCreation limits workDirectory host request created w with ⟨fault | response,w'⟩
  · dsimp only
    cases executeError fault.exc <;> rfl
  · rfl

theorem deleteThrowaway_ok (w : World) :
    (during .deletion (deleteThrowaway host) w).1 = .ok () ↔ host.delete = .granted := by
  unfold deleteThrowaway during Program.mapError
  cases host.delete with
  | granted => exact ⟨fun _ => rfl,fun _ => rfl⟩
  | timeout | cancelled => exact ⟨nofun,nofun⟩

/-- The answer is what `x` answers, unless the deletion that follows fails. -/
theorem finally_ok_iff (x : Handler ExecuteResponse) (deletes : Prop) [Decidable deletes] (w : World)
    (response : ExecuteResponse) :
    ((do
        let outcome ← x.attempt
        if deletes then during .deletion (deleteThrowaway host)
        match outcome with
        | .ok response => pure response
        | .error fault => .raise fault : Handler ExecuteResponse) w).1 = .ok response ↔
      (x w).1 = .ok response ∧ (deletes → host.delete = .granted) := by
  have hreturn (outcome : Except Fault ExecuteResponse) (w : World) :
      ((match outcome with
        | .ok response => pure response
        | .error fault => .raise fault : Handler ExecuteResponse) w).1 = outcome := by
    cases outcome <;> rfl
  rw [Program.bind_ok_iff]
  by_cases h : deletes
  · simp only [if_pos h,Program.bind_ok_iff,hreturn,← deleteThrowaway_ok host (x w).2]
    constructor
    · rintro ⟨_,_,⟨⟩,⟨⟩,v,hdelete,hx⟩
      exact ⟨hx,fun _ => congrArg Prod.fst hdelete⟩
    · rintro ⟨hx,hdelete⟩
      exact ⟨(x w).1,(x w).2,rfl,(),_,Prod.ext (hdelete h) rfl,hx⟩
  · simp only [if_neg h,hreturn]
    constructor
    · rintro ⟨_,_,⟨⟩,hx⟩
      exact ⟨hx,fun hd => absurd hd h⟩
    · rintro ⟨hx,_⟩
      exact ⟨(x w).1,(x w).2,rfl,hx⟩

theorem handleExecute_ok_iff (h : request.multipart = true) (w : World)
    (response : ExecuteResponse) :
    (handleExecute limits workDirectory host request w).1 = .ok response ↔
      settled (tryBlock limits workDirectory host request w).1 = .ok response ∧
        Released host request w := by
  rcases hcreate : creation host request w with ⟨created,w'⟩
  have hattempt (a : Except Fault Unit) (v : World) :
      (creation host request).attempt w = (.ok a,v) ↔ created = a ∧ w' = v := by
    unfold Program.attempt
    rw [hcreate,Prod.mk.injEq,Except.ok.injEq]
  have hreleases : ((request.ephemeral = true ∧ created.isOk = true) → host.delete = .granted) ↔
      Released host request w := by
    unfold Released
    rw [hcreate]
    cases created <;> simp [Except.isOk,Except.toBool]
  rw [tryBlock_fst limits workDirectory host request hcreate,
    ← answered_fst limits workDirectory host request created w',← hreleases,
    ← finally_ok_iff host]
  unfold handleExecute
  rw [if_neg (by simp [h])]
  change ((Program.attempt (creation host request) >>= _) w).1 = _ ↔ _
  rw [Program.bind_ok_iff]
  constructor
  · rintro ⟨a,v,ha,hx⟩
    obtain ⟨rfl,rfl⟩ := (hattempt a v).mp ha
    exact hx
  · exact fun hx => ⟨created,w',(hattempt created w').mpr ⟨rfl,rfl⟩,hx⟩

/-- The exception that leaves the `try` block. -/
def Escapes (w : World) (fault : Fault) : Prop :=
  request.multipart ∧ (tryBlock limits workDirectory host request w).1 = .error fault

/-- The answer is that the path of an attachment is invalid only if staging or committing refused
it, and no `OSError` after the commit loop is answered as a client error. -/
def Attributed (w : World) : Prop :=
  ((handleExecute limits workDirectory host request w).1 = .ok invalidPath →
      ∃ fault, Escapes limits workDirectory host request w fault ∧ Misleading fault.exc ∧
        (fault.phase = .staging ∨ fault.phase = .committing)) ∧
    ∀ fault cls errno response, Escapes limits workDirectory host request w fault →
      fault.phase.afterCommit → fault.exc = .os cls errno →
      (handleExecute limits workDirectory host request w).1 = .ok response →
      response.isClientError = false

variable {request} in
theorem attributed_iff (h : request.Genuine) (w : World) :
    Attributed limits workDirectory host request w ↔
      ¬(request.multipart ∧ Misattributed limits workDirectory host request w ∧
        Released host request w) := by
  have hblame := tryBlock_misattributed limits workDirectory host h w
  have hanswer := handleExecute_ok_iff limits workDirectory host request
  constructor
  · rintro ⟨hinvalid,_⟩ ⟨hmultipart,hmis,hreleased⟩
    obtain ⟨f,hf,hfm,hphase⟩ := hblame.mpr hmis
    have hsettled : settled (tryBlock limits workDirectory host request w).1 = .ok invalidPath := by
      rw [hf,settled,executeError_eq_invalidPath.mpr hfm]
    obtain ⟨f',⟨_,hf'⟩,_,hphase'⟩ :=
      hinvalid ((hanswer hmultipart w invalidPath).mpr ⟨hsettled,hreleased⟩)
    rw [hf,Except.error.injEq] at hf'
    exact hphase (hf' ▸ hphase')
  · intro hgood
    -- an exception of another phase that is settled as an answer would be misattributed
    have hphases (fault : Fault) (hf : Escapes limits workDirectory host request w fault)
        (hfm : Misleading fault.exc) (hreleased : Released host request w) :
        fault.phase = .staging ∨ fault.phase = .committing := by
      by_contra hphase
      exact hgood ⟨hf.1,hblame.mp ⟨fault,hf.2,hfm,hphase⟩,hreleased⟩
    constructor
    · intro hinvalid
      cases hmultipart : request.multipart with
      | false =>
        unfold handleExecute at hinvalid
        rw [if_pos hmultipart] at hinvalid
        exact absurd (Except.ok.inj hinvalid) (by decide)
      | true =>
        obtain ⟨hsettled,hreleased⟩ := (hanswer hmultipart w invalidPath).mp hinvalid
        cases htry : (tryBlock limits workDirectory host request w).1 with
        | ok response =>
          rw [htry] at hsettled
          exact absurd (Except.ok.inj hsettled)
            (tryBlock_returns limits workDirectory host h w response htry)
        | error fault =>
          have hf : Escapes limits workDirectory host request w fault := ⟨hmultipart,htry⟩
          have hfm : Misleading fault.exc := by
            rw [← executeError_eq_invalidPath]
            rw [htry,settled] at hsettled
            cases he : executeError fault.exc with
            | none =>
              rw [he] at hsettled
              cases hsettled
            | some response =>
              rw [he] at hsettled
              exact congrArg some (Except.ok.inj hsettled)
          exact ⟨fault,hf,hfm,hphases fault hf hfm hreleased⟩
    · intro fault cls errno response hf hafter hexc hresponse
      obtain ⟨hsettled,hreleased⟩ := (hanswer hf.1 w response).mp hresponse
      rw [hf.2,settled,hexc] at hsettled
      cases he : executeError (.os cls errno) with
      | none =>
        rw [he] at hsettled
        cases hsettled
      | some answer =>
        obtain ⟨_,hfm⟩ := executeError_os he
        rcases hphases fault hf (hexc ▸ hfm) hreleased with hphase | hphase <;>
          rw [hphase] at hafter <;> cases hafter

end Handling

/-- A field of text. -/
def textPart (name text : String) : Part :=
  ⟨some (lit name),none,.bytes ((fsencode (lit text)).getD []),fun bytes => .ok (fsdecode bytes)⟩

def printOne : ExecuteRequest :=
  ⟨true,false,[.ok (textPart "language" "python"),.ok (textPart "code" "print(1)")]⟩

/-- Everything works but there is no `podman` executable. -/
def withoutPodman : Host where
  full := false
  mkdtemp := none
  quota := true
  registered := true
  lock := .granted
  current := true
  slot := .granted
  openpty := none
  start := some .enoent
  code := id
  returnCode := none
  output := .ok []
  delete := .granted

def exampleLimits : Limits := ⟨100,100,10,0⟩

def emptySession : World :=
  ⟨⟨40,fun _ _ => none,id,fun _ => 0,fun _ => 0,fun _ => [],fun _ => false,fun _ => false,
    fun _ => false⟩,
    .dir ⟨0,⟨true,true,true⟩,0,0,0⟩ [],[],3,0,[]⟩

theorem printOne_genuine : printOne.Genuine := by
  constructor
  · intro e he
    simp [printOne] at he
  · intro part hpart e he
    simp only [printOne,List.mem_cons,Except.ok.injEq,List.not_mem_nil,or_false] at hpart
    rcases hpart with h | h <;> rw [h] at he <;> simp [textPart,prepareReader] at he

/-- With podman in place no fault is misattributed. -/
theorem attributed_with_podman :
    Attributed exampleLimits (lit "/") {withoutPodman with start := none} printOne emptySession := by
  refine (attributed_iff exampleLimits (lit "/") _ printOne_genuine emptySession).mpr ?_
  rintro ⟨_,hcreate | ⟨v,_,hstart⟩,_⟩
  · exact absurd hcreate.1 (by decide)
  · simp [Host.Misleads,withoutPodman] at hstart

/-- Podman is missing, and the client is told that the path of an attachment is invalid. -/
theorem missing_podman_blames_client :
    ¬Attributed exampleLimits (lit "/") withoutPodman printOne emptySession := by
  intro h
  have hstart : (tryBlock exampleLimits (lit "/") withoutPodman printOne emptySession).1 =
      .error ⟨.start,Os.oserror .enoent⟩ := by rfl
  obtain ⟨fault,⟨_,hfault⟩,_,hphase⟩ := h.1 (by rfl)
  rw [hstart] at hfault
  cases hfault
  exact absurd hphase (by decide)
end CodeExecutorApi
