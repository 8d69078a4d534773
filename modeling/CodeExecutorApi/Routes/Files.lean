import CodeExecutorApi.Sessions.Files

/-! routes/files.py: the three handlers, from where the session was found and its lock taken to
where the lock is released, and what the server then answers. -/
namespace CodeExecutorApi
open Python Posix Machine

/-- What a handler returns. -/
inductive Response
  | json (listing : Session.Listing)
  | content (payload : Payload)
  | noContent
  | error (status : ℕ) (message : String)
  deriving DecidableEq, Repr

/-- What a client gets. A cancelled request is not answered. -/
inductive Reply
  | listing (listing : Session.Listing)
  | body (content : Bytes)
  | noContent
  | error (status : ℕ) (message : String)
  | internalServerError
  | dropped
  deriving DecidableEq, Repr

section Handlers
variable (workDirectory : Str)

def handleGetFile (subPath : Str) : Api Response :=
  Program.handle
    (if strip subPath = [] then do
      let listing ← Session.listDirectory workDirectory subPath
      return .json listing
    else
      Program.handle
        (do
          let content ← Session.readFile workDirectory subPath none
          return .content content)
        fun exc =>
          match exc with
          | .os .isADirectory _ => do
            let listing ← Session.listDirectory workDirectory subPath
            return .json listing
          | exc => .raise exc)
    fun exc =>
      match exc with
      | .os .fileNotFound _ | .os .notADirectory _ => pure (.error 404 "File not found")
      | exc => .raise exc

def handlePutFile (maxFileSize : ℕ) (subPath : Str) (content : Content) : Api Response :=
  Program.handle
    (Program.handle
      (do
        Session.writeFile workDirectory maxFileSize subPath content
        return .noContent)
      fun exc =>
        match exc with
        | .os .fileNotFound _ | .os .isADirectory _ | .os .notADirectory _ =>
          pure (.error 400 "Invalid file path")
        | exc => .raise exc)
    fun exc =>
      match exc with
      | .app (.sessionResourceLimitReached message) => pure (.error 413 message)
      | exc => .raise exc

def handleDeleteFile (subPath : Str) : Api Response :=
  Program.handle
    (do
      Session.deleteFile workDirectory subPath
      return .noContent)
    fun exc =>
      match exc with
      | .os .fileNotFound _ | .os .isADirectory _ | .os .notADirectory _ =>
        pure (.error 404 "File not found")
      | exc => .raise exc

end Handlers

/-- The server streams the open file of a payload and closes it. -/
def send : Response → Api Reply
  | .json listing => pure (.listing listing)
  | .content payload => Program.ensure
    (do
      let body ← Os.read payload.fd
      return .body body)
    (Os.close payload.fd)
  | .noContent => pure .noContent
  | .error status message => pure (.error status message)

/-- The answer to an exception that leaves one of these handlers. A `ValidationError` is a response
itself. -/
def answerTo : Exc AppError → Reply
  | .app (.validationError e) => .error 400 e.message
  | .cancelled => .dropped
  | _ => .internalServerError

def serve (handler : Api Response) : World → Reply × World := fun w =>
  match (handler >>= send) w with
  | (.ok reply,w') => (reply,w')
  | (.error exc,w') => (answerTo exc,w')

/-- A request to the files API on one session. -/
inductive FileRequest
  | get (subPath : Str)
  | put (subPath : Str) (content : Content)
  | delete (subPath : Str)

def FileRequest.subPath : FileRequest → Str
  | .get subPath | .put subPath _ | .delete subPath => subPath

def FileRequest.handler (maxFileSize : ℕ) (workDirectory : Str) : FileRequest → Api Response
  | .get subPath => handleGetFile workDirectory subPath
  | .put subPath content => handlePutFile workDirectory maxFileSize subPath content
  | .delete subPath => handleDeleteFile workDirectory subPath

theorem serve_eq {handler : Api Response} {w : World} {Q : Reply → World → Prop}
    (h : handler.Ends w fun r v =>
      match r with
      | .ok response => (send response).Ends v fun r u => ∃ reply, r = .ok reply ∧ Q reply u
      | .error exc => Q (answerTo exc) v) :
    Q (serve handler w).1 (serve handler w).2 := by
  have hb : (handler >>= send).Ends w fun r v =>
      match r with
      | .ok reply => Q reply v
      | .error exc => Q (answerTo exc) v := by
    refine h.bind (fun response v hv => ?_) fun exc v hv => hv
    refine Program.Ends.mono hv ?_
    rintro _ u ⟨reply,rfl,hq⟩
    exact hq
  unfold serve
  unfold Program.Ends at hb
  rcases hw : (handler >>= send) w with ⟨exc | reply,v⟩ <;> rw [hw] at hb <;> exact hb

end CodeExecutorApi
