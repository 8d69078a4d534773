import CodeExecutorApi.Executor.Walk
import CodeExecutorApi.Sessions.Files

/-! routes/execute.py: one request to execute code, through all its phases, with the part of
podman_executor.py that it runs the code by. -/
namespace CodeExecutorApi
open Python Posix Machine

/-- The phases of `handle_execute`. -/
inductive Phase
  | creation
  | locking
  | reading
  | staging
  | validation
  | committing
  | waiting
  | snapshot
  | start
  | running
  | collection
  | response
  | deletion
  deriving DecidableEq, Repr

/-- An exception, and the phase it was raised in. -/
structure Fault where
  phase : Phase
  exc : Exc AppError
  deriving DecidableEq, Repr

/-- A part of `handle_execute`. -/
abbrev Handler (α : Type) := Program World Fault α

def during {α : Type} (phase : Phase) (x : Api α) : Handler α := x.mapError (Fault.mk phase)

/-- How a charset refuses: with a `LookupError` or a `UnicodeDecodeError`, or with a `ValueError` of
another kind. -/
inductive DecodeError
  | encoding
  | valueError
  deriving DecidableEq, Repr

/-- A part of a multipart body. `decode` is what its charset makes of its content. -/
structure Part where
  name : Option Str
  filename : Option Str
  content : Content
  decode : Bytes → Except DecodeError Str

structure ExecutionResult where
  output : Str
  returnCode : ℤ
  timedOut : Bool
  deriving DecidableEq, Repr

/-- What the handler returns. -/
inductive ExecuteResponse
  | mixed (result : ExecutionResult) (deletedFiles omittedFiles : List Str)
      (payloads : List Payload)
  | error (status : ℕ) (message : Str)
  deriving DecidableEq, Repr

/-- What waiting for a lock or a slot comes to. -/
inductive Wait
  | granted
  | timeout
  | cancelled
  deriving DecidableEq, Repr

/-- What one request meets in the session manager, at the event loop, and at podman. A call of the
host may fail with an errno, and any await may be cancelled. -/
structure Host where
  /-- `len(self._sessions) >= MAX_SESSIONS` -/
  full : Bool
  mkdtemp : Option Errno
  /-- Neither are the project ids used up nor does `_apply_quota` fail. -/
  quota : Bool
  /-- The session is registered when the request comes and when it has the lock. -/
  registered : Bool
  lock : Wait
  current : Bool
  slot : Wait
  openpty : Option Errno
  start : Option Errno
  /-- What the executed code makes of the session. -/
  code : Node → Node
  returnCode : Option ℤ
  output : Except Errno Bytes
  /-- Whether the throwaway session can be locked again to be deleted. -/
  delete : Wait

structure Limits where
  maxFileSize : ℕ
  maxCodeLength : ℕ
  maxResultAttachments : ℕ
  prefixLength : ℕ

structure ExecuteRequest where
  multipart : Bool
  ephemeral : Bool
  body : List (Except (Exc AppError) Part)

/-- The local variables of the reading loop. -/
structure Fields where
  language : Option Str
  code : Option Str
  staged : List (Str × Str)
  deriving DecidableEq, Repr

/-- How a block of statements is left. -/
inductive Left
  | fallsThrough
  | returns (response : ExecuteResponse)
  | raises (fault : Fault)
  deriving DecidableEq, Repr

/-- A call of the host, which may fail. -/
def hostCall (outcome : Option Errno) : Api Unit :=
  match outcome with
  | some e => .raise (Os.oserror e)
  | none => pure ()

section Staging
variable (limits : Limits) (workDirectory : Str)

def readTextPart (part : Part) (maxSize : ℕ) : Api Str := do
  let content ← readContent part.content maxSize
  match part.decode content with
  | .ok text => pure text
  | .error .encoding => .raise (.app (.invalidField .encoding))
  | .error .valueError => .raise .valueError

/-- A charset that refuses what it cannot decode. -/
def strict (decode : Bytes → Option Str) (content : Bytes) : Except DecodeError Str :=
  (decode content).elim (.error .encoding) .ok

theorem strict_eq_ok {decode : Bytes → Option Str} {content : Bytes} {text : Str} :
    strict decode content = .ok text ↔ decode content = some text := by
  unfold strict
  cases decode content <;> simp

/-- The `language` field. One that is too long names no language. -/
def readLanguage (part : Part) : Api Str :=
  (readTextPart part 64).handle fun exc =>
    match exc with
    | .app .requestEntityTooLarge => .raise (.app (.invalidField .longLanguage))
    | exc => .raise exc

/-- One turn of the loop over the parts. -/
def readPart (fields : Fields) (part : Part) : Handler (Except ExecuteResponse Fields) :=
  if part.name = some (lit "language") then do
    let language ← during .reading (readLanguage part)
    return .ok {fields with language := some (trim language)}
  else if part.name = some (lit "code") then do
    let code ← during .reading (readTextPart part limits.maxCodeLength)
    return .ok {fields with code := some code}
  else if part.name = some (lit "attachments") then
    match part.filename with
    | none => pure (.error (.error 400 (lit "attachments parts must be files")))
    | some filename => do
      let staged ← during .staging
        (Session.stageFile workDirectory limits.maxFileSize filename part.content)
      return .ok {fields with staged := fields.staged ++ [staged]}
  else
    pure (.error (.error 400 (lit "Unsupported multipart field: " ++
      part.name.getD (lit "None"))))

/-- The loop over the parts. Whatever ends it, the variables stay as they are then. -/
def readParts : Fields → List (Except (Exc AppError) Part) → Handler (Fields × Left)
  | fields, [] => pure (fields,.fallsThrough)
  | fields, .error e :: _ => pure (fields,.raises ⟨.reading,e⟩)
  | fields, .ok part :: parts => do
    let outcome ← (readPart limits workDirectory fields part).attempt
    match outcome with
    | .ok (.ok fields) => readParts fields parts
    | .ok (.error response) => pure (fields,.returns response)
    | .error fault => pure (fields,.raises fault)

/-- `except (AssertionError, ValueError, BadHttpMessage)` around the loop. A `UnicodeEncodeError` is
a `ValueError`. -/
def malformed : Left → Left
  | .raises ⟨phase,.valueError⟩ | .raises ⟨phase,.unicodeEncodeError⟩
  | .raises ⟨phase,.app .assertionError⟩ | .raises ⟨phase,.app .badHttpMessage⟩ =>
    .raises ⟨phase,.app (.invalidField .malformed)⟩
  | left => left

/-- The commit loop: what it leaves staged, and how it ends. -/
def commitAll : List (Str × Str) → Handler (List (Str × Str) × Left)
  | [] => pure ([],.fallsThrough)
  | st :: staged => do
    let outcome ← (during .committing
      (Session.commitStagedFile workDirectory st.1 st.2)).attempt
    match outcome with
    | .ok () => commitAll staged
    | .error fault => pure (st :: staged,.raises fault)

/-- What follows the loop over the parts in the `try` block. -/
def validateAndCommit (fields : Fields) : Left → Handler (List (Str × Str) × Left)
  | .fallsThrough =>
    match validateLanguage fields.language, validateCode fields.code with
    | .error e, _ | .ok _, .error e =>
      pure (fields.staged,.raises ⟨.validation,.app (.invalidField e)⟩)
    | .ok _, .ok _ => commitAll workDirectory fields.staged
  | left => pure (fields.staged,left)

/-- The `finally` block. -/
def discardAll : List (Str × Str) → Handler Unit
  | [] => pure ()
  | st :: staged => do
    during .committing (Session.suppressOSError
      (Session.discardStagedFile workDirectory st.1 st.2))
    discardAll staged

/-- The staging block: the fields of a request whose attachments are committed, or its refusal. -/
def stagingBlock (body : List (Except (Exc AppError) Part)) :
    Handler (Except ExecuteResponse Fields) := do
  let (fields,left) ← readParts limits workDirectory ⟨none,none,[]⟩ body
  let (staged,left) ← validateAndCommit workDirectory fields (malformed left)
  discardAll workDirectory staged
  match left with
  | .fallsThrough => pure (.ok fields)
  | .returns response => pure (.error response)
  | .raises fault => .raise fault

end Staging

section Execution
variable (limits : Limits) (workDirectory : Str) (host : Host)

/-- `SessionManager.create` -/
def create : Api Unit := do
  if host.full then .raise (.app .sessionLimitReached)
  hostCall host.mkdtemp
  if host.quota then Os.checkpoint else .raise (.app .quotaSetupFailed)

/-- Wait for a lock or a slot. -/
def await (wait : Wait) (onTimeout : AppError) : Api Unit :=
  match wait with
  | .granted => pure ()
  | .timeout => .raise (.app onTimeout)
  | .cancelled => .raise .cancelled

/-- Enter `SessionManager.locked`. -/
def locked : Api Unit := do
  if host.registered = false then .raise (.app .sessionNotFound)
  await host.lock .sessionLockTimeout
  if host.current = false then .raise (.app .sessionNotFound)

/-- Walk the session in a worker thread. -/
def walkSession : Api (Dict Str StatResult) :=
  Os.awaitThread fun w => (.ok (.ofItems (iterSessionFiles limits.prefixLength w.root)),w)

/-- `run_container`. Of the removal of a container that is still there, only that it can be cancelled
matters here. The output is awaited even if podman could not be started. -/
def runContainer : Handler ExecutionResult := do
  during .start (hostCall host.openpty)
  let ended ← Program.attempt
    (do
      during .start Os.checkpoint
      during .start (hostCall host.start)
      during .running fun w => (.ok (),{w with root := host.code w.root})
      during .running Os.checkpoint)
  let output ← during .running
    (do
      Os.checkpoint
      match host.output with
      | .ok output => pure output
      | .error e => .raise (Os.oserror e))
  match ended with
  | .ok () =>
    pure ⟨trimRight (fsdecode output),host.returnCode.getD (-1),host.returnCode.isNone⟩
  | .error fault => .raise fault

/-- The loop over the changed files: the payloads opened and the files omitted so far. -/
def openPayloads : List Payload → List Str → List Str → Api (List Payload × List Str)
  | payloads, omittedFiles, [] => pure (payloads,omittedFiles)
  | payloads, omittedFiles, subPath :: subPaths =>
    if limits.maxResultAttachments ≤ payloads.length then
      openPayloads payloads (omittedFiles ++ [subPath]) subPaths
    else do
      let outcome ← (Session.readFile workDirectory subPath (some (lit "attachments"))).attempt
      match outcome with
      | .ok payload => openPayloads (payloads ++ [payload]) omittedFiles subPaths
      | .error (.os ..) | .error .unicodeEncodeError =>
        openPayloads payloads (omittedFiles ++ [subPath]) subPaths
      | .error e => .raise e

/-- What happens inside `execution_slot`, `run_code_async` included. -/
def execute : Handler ExecuteResponse := do
  during .waiting (await host.slot .executionLimitReached)
  let before ← during .snapshot (walkSession limits)
  let result ← runContainer host
  let after ← during .collection (walkSession limits)
  let changes := collectChanges (.init before) after
  let (payloads,omittedFiles) ← during .response (openPayloads limits workDirectory [] [] changes.1)
  return .mixed result changes.2 omittedFiles payloads

/-- What happens inside `locked`. -/
def lockedBlock (body : List (Except (Exc AppError) Part)) : Handler ExecuteResponse := do
  during .locking (locked host)
  let staged ← stagingBlock limits workDirectory body
  match staged with
  | .ok _ => execute limits workDirectory host
  | .error response => pure response

/-- The `except` clauses. -/
def executeError : Exc AppError → Option ExecuteResponse
  | .app .sessionNotFound => some (.error 404 (lit "Session not found"))
  | .app .sessionLockTimeout => some (.error 409 (lit "Session is busy"))
  | .app .sessionLimitReached => some (.error 503 (lit "Session capacity reached"))
  | .app .quotaSetupFailed => some (.error 500 (lit "Session storage quota setup failed"))
  | .app .executionLimitReached => some (.error 503 (lit "Execution capacity reached"))
  | .app (.sessionResourceLimitReached message) => some (.error 413 (lit message))
  | .os .fileNotFound _ | .os .isADirectory _ => some (.error 400 (lit "Invalid attachment path"))
  | _ => none

/-- Delete a throwaway session. One that is gone already is none of the request's business. -/
def deleteThrowaway : Api Unit := await host.delete .sessionLockTimeout

/-- The `try` statement up to its `finally`, for a session that was or was not created. -/
def answered (created : Except Fault Unit) (body : List (Except (Exc AppError) Part)) :
    Handler ExecuteResponse :=
  Program.handle
    (match created with
    | .ok () => lockedBlock limits workDirectory host body
    | .error fault => .raise fault)
    fun fault =>
      match executeError fault.exc with
      | some response => pure response
      | none => .raise fault

def handleExecute (request : ExecuteRequest) : Handler ExecuteResponse :=
  if request.multipart = false then
    pure (.error 400 (lit "Request must be multipart/form-data"))
  else do
    let created ← Program.attempt
      (if request.ephemeral then during .creation (create host) else pure ())
    let outcome ← (answered limits workDirectory host created request.body).attempt
    if request.ephemeral ∧ created.isOk then during .deletion (deleteThrowaway host)
    match outcome with
    | .ok response => pure response
    | .error fault => .raise fault

end Execution
end CodeExecutorApi
