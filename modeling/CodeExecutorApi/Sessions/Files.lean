import CodeExecutorApi.FileHelpers

/-! The file operations of a `Session`. Each walks to the directory of its sub_path one component
at a time and then acts relative to the descriptor it got there. -/
namespace CodeExecutorApi
open Python Posix Machine

namespace Session

/-- `O_RDONLY | O_DIRECTORY | O_NOFOLLOW`. -/
def dirFlags : Flags := ⟨false,false,false,true,true,false⟩

/-- `O_RDONLY | O_NONBLOCK | O_NOFOLLOW`. -/
def readFlags : Flags := ⟨false,false,false,false,true,true⟩

/-- Mode 0o700. -/
def dirMode : Mode := ⟨true,true,true⟩

/-- Replace the errors with one of the given errnos by an exception the code raises itself. -/
def mapErrno {α : Type} (errnos : List Errno) (cls : OSErrorClass) (x : Api α) : Api α :=
  x.handle fun exc =>
    match exc with
    | .os _ (some e) => if e ∈ errnos then .raise (.os cls none) else .raise exc
    | exc => .raise exc

/-- Make the directory `pathPart` unless something has that name. -/
def mkdirIfMissing (pathPart : Str) (parentFd : ℕ) : Api Unit :=
  (Os.mkdir pathPart dirMode parentFd).handle fun exc =>
    match exc with
    | .os .fileExists _ => pure ()
    | exc => .raise exc

/-- One turn of the loop of `_open_parent`: the descriptor of the next directory. -/
def openPart (createDir : Bool) (parentFd : ℕ) (pathPart : Str) : Api ℕ := do
  if createDir then mkdirIfMissing pathPart parentFd
  let nextFd ← mapErrno [.eloop,.enotdir] .fileNotFound
    (Os.open_ pathPart dirFlags dirMode (some parentFd))
  Os.close parentFd
  return nextFd

/-- The loop of `_open_parent` and the body of the `with`. Whatever raises, the descriptor that is
`parent_fd` at that moment is closed. -/
def openParts {α : Type} [Owning α] (createDir : Bool) (body : ℕ → Api α) : ℕ → List Str → Api α
  | parentFd, [] =>
    (body parentFd).ensureOrDrop (Os.close parentFd) fun a => Os.drop (Owning.owned a)
  | parentFd, pathPart :: pathParts => do
    let nextFd ← (openPart createDir parentFd pathPart).onError (Os.close parentFd)
    openParts createDir body nextFd pathParts

/-- `with self._open_parent(...) as (parent_fd, final_name, _)`. -/
def openParent {α : Type} [Owning α] (workDirectory normalisedSubPath : Str) (createDir : Bool)
    (body : ℕ → Str → Api α) : Api α := do
  let pathParts := split normalisedSubPath
  let parentFd ← Os.open_ workDirectory dirFlags dirMode none
  openParts createDir (fun fd => body fd (pathParts.getLast?.getD [])) parentFd pathParts.dropLast

/-- `normalize_sub_path`, raising. -/
def normalize (subPath : Str) : Api Str :=
  match normalizeSubPath subPath with
  | .ok normalised => pure normalised
  | .error e => .raise (.app (.validationError e))

section
variable (workDirectory : Str)

def readFile (subPath : Str) (fieldName : Option Str) : Api Payload := do
  let normalisedSubPath ← normalize subPath
  openParent workDirectory normalisedSubPath false fun parentFd filename => do
    let fd ← mapErrno [.eloop,.enxio,.enodev,.enotdir] .fileNotFound
      (Os.open_ filename readFlags dirMode (some parentFd))
    Program.onError
      (do
        let st ← Os.fstat fd
        if st.type = .directory then .raise (.os .isADirectory none)
        else if st.type ≠ .regular then .raise (.os .fileNotFound none)
        else pure ())
      (Os.close fd)
    CodeExecutorApi.readFile fd normalisedSubPath fieldName

/-- One entry of a listing. `_entry_type` gives the type its name. -/
structure Entry where
  name : Str
  type : FileType
  size : ℕ
  modifiedAt : ℤ
  deriving DecidableEq, Repr

structure Listing where
  path : Str
  entries : List Entry
  deriving DecidableEq, Repr

/-- `lstat` of one name, or nothing if that fails. -/
def statEntry (fd : ℕ) (name : Str) : Api (Option Entry) :=
  Program.handle
    (do
      let st ← Os.stat name fd
      return some ⟨name,st.type,st.size,st.mtimeNs⟩)
    fun exc =>
      match exc with
      | .os .. => pure none
      | exc => .raise exc

def statEntries (fd : ℕ) : List Str → Api (List Entry)
  | [] => pure []
  | name :: names => do
    let entry ← statEntry fd name
    let entries ← statEntries fd names
    return entry.toList ++ entries

def listDirectory (subPath : Str) : Api Listing := do
  let normalisedSubPath ← if strip subPath = [] then pure [] else normalize subPath
  let fd ←
    if normalisedSubPath = [] then Os.open_ workDirectory dirFlags dirMode none
    else
      openParent workDirectory normalisedSubPath false fun parentFd filename =>
        mapErrno [.eloop,.enotdir] .notADirectory
          (Os.open_ filename dirFlags dirMode (some parentFd))
  let entries ← Program.ensure
    (do
      let names ← Os.listdir fd
      statEntries fd names)
    (Os.close fd)
  return ⟨normalisedSubPath,entries.mergeSort fun a b => decide (a.name ≤ b.name)⟩

def storageLimit : Exc AppError :=
  .app (.sessionResourceLimitReached "Session storage or file count limit reached")

def stageFile (maxFileSize : ℕ) (subPath : Str) (content : Content) : Api (Str × Str) := do
  let normalisedSubPath ← normalize subPath
  let temporaryName ← Program.handle
    (openParent workDirectory normalisedSubPath true fun parentFd _ => do
      let (temporaryName,_) ← writeFileToTemp parentFd content maxFileSize
      return temporaryName)
    fun exc =>
      match exc with
      | .app .requestEntityTooLarge =>
        .raise (.app (.sessionResourceLimitReached "File size limit reached"))
      | .os _ (some .enospc) | .os _ (some .edquot) => .raise storageLimit
      | exc => .raise exc
  return (normalisedSubPath,temporaryName)

def commitStagedFile (normalisedSubPath temporaryName : Str) : Api Unit :=
  openParent workDirectory normalisedSubPath false fun parentFd filename =>
    Os.replace temporaryName filename parentFd parentFd

def discardStagedFile (normalisedSubPath temporaryName : Str) : Api Unit :=
  openParent workDirectory normalisedSubPath false fun parentFd _ =>
    suppressFileNotFound (Os.unlink temporaryName parentFd)

/-- `with contextlib.suppress(OSError)`. -/
def suppressOSError (x : Api Unit) : Api Unit :=
  x.handle fun exc =>
    match exc with
    | .os .. => pure ()
    | exc => .raise exc

def writeFile (maxFileSize : ℕ) (subPath : Str) (content : Content) : Api Unit := do
  let (normalisedSubPath,temporaryName) ← stageFile workDirectory maxFileSize subPath content
  (commitStagedFile workDirectory normalisedSubPath temporaryName).handle fun exc => do
    suppressOSError (discardStagedFile workDirectory normalisedSubPath temporaryName)
    match exc with
    | .os _ (some .enospc) | .os _ (some .edquot) => .raise storageLimit
    | exc => .raise exc

def deleteFile (subPath : Str) : Api Unit := do
  let normalisedSubPath ← normalize subPath
  openParent workDirectory normalisedSubPath false fun parentFd filename => do
    let st ← Os.stat filename parentFd
    if st.type = .directory then .raise (.os .isADirectory none)
    Os.unlink filename parentFd

end
end Session
end CodeExecutorApi
