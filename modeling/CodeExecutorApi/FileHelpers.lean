import CodeExecutorApi.Python.Os
import CodeExecutorApi.Validation

/-! file_helpers.py: writing a body to a temporary file, and the payload of an opened file. -/
namespace CodeExecutorApi
open Python Posix Machine

/-- The exceptions of the API itself, and what reading a request body can raise. A
`ValidationError` is about a path or about a field. -/
inductive AppError
  | validationError (e : InvalidPath)
  | invalidField (e : InvalidField)
  | requestEntityTooLarge
  | sessionResourceLimitReached (message : String)
  | sessionNotFound
  | sessionLockTimeout
  | sessionLimitReached
  | quotaSetupFailed
  | executionLimitReached
  | assertionError
  | badHttpMessage
  | bodyError
  deriving DecidableEq, Repr

abbrev Api (α : Type) := Os AppError α

/-- A body: bytes in memory, or what each read of a reader gives until its `at_eof` holds. -/
inductive Content
  | bytes (content : Bytes)
  | reader (reads : List (Except (Exc AppError) Bytes))

/-- The results of the reads of the loop that consumes a body. -/
def prepareReader : Content → List (Except (Exc AppError) Bytes)
  | .bytes content => [.ok content]
  | .reader reads => reads

/-- The loop of `_write_content` from a given `actual_size` on. -/
def writeContent (fd maxSize : ℕ) : ℕ → List (Except (Exc AppError) Bytes) → Api ℕ
  | actualSize, [] => pure actualSize
  | actualSize, read :: reads => do
    Os.checkpoint
    match read with
    | .error e => .raise e
    | .ok [] => pure actualSize
    | .ok chunk =>
      if maxSize < actualSize + chunk.length then .raise (.app .requestEntityTooLarge)
      else
        Os.awaitThread (Os.write fd chunk)
        writeContent fd maxSize (actualSize + chunk.length) reads

def writeFileContent (fd : ℕ) (content : Content) (maxSize : ℕ) : Api ℕ :=
  writeContent fd maxSize 0 (prepareReader content)

/-- The loop of `read_content`, given what it has written so far. -/
def readLoop (maxSize : ℕ) : Bytes → List (Except (Exc AppError) Bytes) → Api Bytes
  | written, [] => pure written
  | written, read :: reads => do
    Os.checkpoint
    match read with
    | .error e => .raise e
    | .ok [] => pure written
    | .ok chunk =>
      if maxSize < written.length + chunk.length then .raise (.app .requestEntityTooLarge)
      else readLoop maxSize (written ++ chunk) reads

def readContent (content : Content) (maxSize : ℕ) : Api Bytes :=
  readLoop maxSize [] (prepareReader content)

/-- `with contextlib.suppress(FileNotFoundError)`. -/
def suppressFileNotFound (x : Api Unit) : Api Unit :=
  x.handle fun e =>
    match e with
    | .os .fileNotFound _ => pure ()
    | e => .raise e

def tempPrefix : Str := lit ".code_executor_upload_"

/-- The names `write_file_to_temp` draws. -/
def IsTemporary (s : Str) : Prop := ∃ digits : List (Fin 64), s = tempPrefix ++ digits.map Os.digit

theorem IsTemporary.plain {s : Str} (h : IsTemporary s) : Plain s := by
  obtain ⟨digits,rfl⟩ := h
  have hdigit : ∀ d : Fin 64, Os.digit d ≠ slash := by decide
  have hprefix : slash ∉ tempPrefix := by decide
  refine ⟨?_,?_,?_,?_⟩
  · simp [tempPrefix,lit]
  · intro h
    have hlen := congrArg List.length h
    rw [List.length_append] at hlen
    have : tempPrefix.length = 22 := rfl
    have : curdir.length = 1 := rfl
    omega
  · intro h
    have hlen := congrArg List.length h
    rw [List.length_append] at hlen
    have : tempPrefix.length = 22 := rfl
    have : pardir.length = 2 := rfl
    omega
  · rw [List.mem_append,List.mem_map]
    rintro (h | ⟨d,_,hd⟩)
    · exact hprefix h
    · exact hdigit d hd

def tempFlags : Flags := ⟨true,true,true,false,true,false⟩

/-- Mode 0o600. -/
def tempMode : Mode := ⟨true,true,false⟩

/-- Until the file object owns the descriptor, the clean-up closes it too; from then on the
`async with` does, whether the body was written or not. -/
def writeFileToTemp (parentFd : ℕ) (content : Content) (maxSize : ℕ) : Api (Str × ℕ) := do
  let token ← Os.tokenUrlsafe
  let temporaryName := tempPrefix ++ token
  let unlinkTemp := suppressFileNotFound (Os.unlink temporaryName parentFd)
  let fd ← Os.open_ temporaryName tempFlags tempMode (some parentFd)
  Program.onError (Os.awaitFdopen fd) (do Os.close fd; unlinkTemp)
  let size ← Program.onError
    ((writeFileContent fd content maxSize).ensure (Os.awaitThread (Os.close fd))) unlinkTemp
  return (temporaryName,size)

def isAlnum (c : CodePoint) : Bool :=
  (0x30 ≤ c.val ∧ c.val ≤ 0x39) ∨ (0x41 ≤ c.val ∧ c.val ≤ 0x5A) ∨ (0x61 ≤ c.val ∧ c.val ≤ 0x7A)

/-- The class the pattern `[^A-Za-z0-9._-]` excludes. -/
def isFilenameChar (c : CodePoint) : Bool := isAlnum c ∨ c.val = 0x2E ∨ c.val = 0x5F ∨ c.val = 0x2D

def hexDigit (n : ℕ) : CodePoint := Fin.ofNat _ (if n < 10 then 0x30 + n else 0x37 + n)

def isUnreserved (b : Byte) : Bool :=
  isFilenameChar (Fin.ofNat _ b.val) ∨ b.val = 0x7E

/-- `urllib.parse.quote` with nothing safe but the unreserved characters. -/
def quote (s : Str) : Option Str :=
  if hasSurrogate s then none
  else (fsencode s).map fun bytes => bytes.flatMap fun b =>
    if isUnreserved b then [Fin.ofNat _ b.val] else [0x25,hexDigit (b/16),hexDigit (b%16)]

/-- `none` is a `UnicodeEncodeError`. -/
def contentDisposition (subPath : Str) (fieldName : Option Str) : Option Str := do
  let flat := subPath.map fun c => if isFilenameChar c then c else 0x5F
  let fallback := if flat = [] then lit "attachment" else flat
  let quoted ← quote subPath
  let name := match fieldName with
    | some f => [lit "name=\"" ++ f ++ lit "\""]
    | none => []
  return (lit "; ").intercalate ([lit "attachment"] ++ name ++
    [lit "filename=\"" ++ fallback ++ lit "\"",lit "filename*=UTF-8''" ++ quoted])

/-- An `IOBasePayload`: the open file it streams, and its header. -/
structure Payload where
  fd : ℕ
  contentDisposition : Str
  deriving DecidableEq, Repr

/-- A value that may own a file object, by the descriptor of that. -/
class Owning (α : Type) where
  owned : α → Option ℕ

instance : Owning Payload := ⟨fun payload => some payload.fd⟩

instance : Owning ℕ := ⟨fun _ => none⟩

instance : Owning Str := ⟨fun _ => none⟩

instance : Owning Unit := ⟨fun _ => none⟩

/-- What can fail in the constructor of `IOBasePayload`. It guesses the media type of the file. -/
def ioBasePayload (filename : Str) : Api Unit := fun w =>
  if w.env.refuses filename then (.error .valueError,w.tick)
  else Os.syscall .payload (fun w => .ok ((),w)) w

/-- Take ownership of `fd`, closing it if the payload cannot be prepared. -/
def readFile (fd : ℕ) (filename : Str) (fieldName : Option Str) : Api Payload :=
  Program.onError
    (do
      Os.fdopen fd
      ioBasePayload filename
      match contentDisposition filename fieldName with
      | some header => pure ⟨fd,header⟩
      | none => .raise .unicodeEncodeError)
    (Os.close fd)

end CodeExecutorApi
