import CodeExecutorApi.Posix.Mount
import CodeExecutorApi.Sessions.Files

/-! File operations stay inside their session. An operation on a session somewhere in a host does
what it would do if the session were the whole file system, where no path leads out. -/
namespace CodeExecutorApi
open Python Posix Machine

section Calls
variable (m : Mount) {ε α : Type}

/-- The program does in the host what it does in the tree. -/
abbrev Contained (x : Os ε α) : Prop := Program.Simulates m.place x x

theorem syscall_contained {c : Call} {f g : World → Except Errno (α × World)}
    (h : m.Commutes f g) :
    Program.Simulates m.place (Os.syscall c f : Os ε α) (Os.syscall c g) := by
  intro w
  have hplace : (m.place w).env.fault c (m.place w).calls = w.env.fault c w.calls := rfl
  unfold Os.syscall
  simp only [hplace]
  cases w.env.fault c w.calls with
  | some e => rfl
  | none =>
    dsimp only
    rw [h w]
    cases g w <;> rfl

/-- A plain component as a path argument: it has no encoding, or it is a file name. -/
theorem path_contained {s : Str} (hs : Plain s) {f : Bytes → Os ε α}
    (hf : ∀ c : Name, Contained m (f c.bytes)) : Contained m (Os.path s >>= f) := by
  unfold Os.path
  cases h : fsencode s with
  | none => exact .raise _
  | some b =>
    dsimp only
    split_ifs with hnul
    · exact .raise _
    · exact hf ⟨b,isName_of_plain hs h hnul⟩

theorem open_contained {s : Str} (hs : Plain s) {flags : Flags} (hflags : flags.nofollow = true)
    (mode : Mode) (fd : ℕ) : Contained m (Os.open_ s flags mode (some fd) : Os ε ℕ) :=
  path_contained m hs fun c => syscall_contained m (m.openAt_commutes c fd mode hflags)

theorem mkdir_contained {s : Str} (hs : Plain s) (mode : Mode) (fd : ℕ) :
    Contained m (Os.mkdir s mode fd : Os ε Unit) :=
  path_contained m hs fun c => syscall_contained m (m.mkdirAt_commutes c fd mode)

theorem unlink_contained {s : Str} (hs : Plain s) (fd : ℕ) :
    Contained m (Os.unlink s fd : Os ε Unit) :=
  path_contained m hs fun c => syscall_contained m (m.unlinkAt_commutes c fd)

theorem stat_contained {s : Str} (hs : Plain s) (fd : ℕ) :
    Contained m (Os.stat s fd : Os ε StatResult) :=
  path_contained m hs fun c => syscall_contained m (m.statAt_commutes c fd)

theorem replace_contained {s t : Str} (hs : Plain s) (ht : Plain t) (src dst : ℕ) :
    Contained m (Os.replace s t src dst : Os ε Unit) :=
  path_contained m hs fun c => path_contained m ht fun d =>
    syscall_contained m (m.renameAt_commutes c d src dst)

theorem close_contained (fd : ℕ) : Contained m (Os.close fd : Os ε Unit) := by
  intro w
  unfold Os.close
  rw [m.locOf_place,m.close_place]
  have hfault : (m.place w).env.fault .close (m.place w).calls = w.env.fault .close w.calls := rfl
  rw [hfault]
  cases w.env.fault .close w.calls with
  | some e => rfl
  | none => cases w.locOf fd <;> rfl

theorem drop_contained (owned : Option ℕ) : Contained m (Os.drop owned : Os ε Unit) := by
  cases owned with
  | none => exact .pure _
  | some fd =>
    intro w
    exact congrArg (fun v : World => (Except.ok (),v.tick)) (m.close_place w fd)

theorem fdopen_contained (fd : ℕ) : Contained m (Os.fdopen fd : Os ε Unit) :=
  syscall_contained m fun _ => rfl

theorem checkpoint_contained : Contained m (Os.checkpoint : Os ε Unit) := fun _ => rfl

theorem awaitThread_contained {x : Os ε α} (hx : Contained m x) :
    Contained m (Os.awaitThread x) :=
  (checkpoint_contained m).bind fun _ => hx.bind fun a =>
    (checkpoint_contained m).bind fun _ => .pure a

theorem awaitFdopen_contained (fd : ℕ) : Contained m (Os.awaitFdopen fd : Os ε Unit) := by
  refine (checkpoint_contained m).bind fun _ => (fdopen_contained m fd).bind fun _ =>
    (checkpoint_contained m).onError fun w => ?_
  exact drop_contained m (if w.env.freed w.calls then some fd else none) w

theorem tokenUrlsafe_contained {f : Str → Os ε α}
    (hf : ∀ digits : List (Fin 64), Contained m (f (digits.map Os.digit))) :
    Contained m (Os.tokenUrlsafe >>= f) := fun w =>
  hf (w.env.random w.calls) w.tick

theorem read_contained (fd : ℕ) : Contained m (Os.read fd : Os ε Bytes) := by
  intro w
  unfold Os.read
  rw [m.nodeOf_place]
  cases w.nodeOf fd with
  | error e => rfl
  | ok n => cases n <;> rfl

end Calls
section Helpers
variable (m : Mount) {α : Type}

theorem suppressFileNotFound_contained {x : Api Unit} (hx : Contained m x) :
    Contained m (suppressFileNotFound x) := by
  refine hx.handle fun e => ?_
  cases e with
  | os cls errno => cases cls <;> first | exact .pure _ | exact .raise _
  | valueError | unicodeEncodeError | cancelled | app => exact .raise _

theorem suppressOSError_simulates {x y : Api Unit} (hx : Program.Simulates m.place x y) :
    Program.Simulates m.place (Session.suppressOSError x) (Session.suppressOSError y) := by
  refine hx.handle fun e => ?_
  cases e with
  | os => exact .pure _
  | valueError | unicodeEncodeError | cancelled | app => exact .raise _

theorem mapErrno_contained {errnos : List Errno} {cls : OSErrorClass} {x : Api α}
    (hx : Contained m x) : Contained m (Session.mapErrno errnos cls x) := by
  refine hx.handle fun e => ?_
  split
  · split_ifs <;> exact .raise _
  · exact .raise _

theorem writeContent_contained (fd maxSize size : ℕ)
    (reads : List (Except (Exc AppError) Bytes)) :
    Contained m (writeContent fd maxSize size reads) := by
  induction reads generalizing size with
  | nil => exact .pure _
  | cons read reads ih =>
    refine (checkpoint_contained m).bind fun _ => ?_
    cases read with
    | error e => exact .raise e
    | ok chunk =>
      cases chunk with
      | nil => exact .pure size
      | cons b chunk =>
        dsimp only
        split_ifs
        · exact .raise _
        · exact (awaitThread_contained m (syscall_contained m (m.append_commutes fd _))).bind
            fun _ => ih _

theorem writeFileToTemp_contained (parentFd : ℕ) (content : Content) (maxSize : ℕ) :
    Contained m (writeFileToTemp parentFd content maxSize) := by
  refine tokenUrlsafe_contained m fun digits => ?_
  have htemp := IsTemporary.plain ⟨digits,rfl⟩
  have hunlink : Contained m (suppressFileNotFound (Os.unlink _ parentFd)) :=
    suppressFileNotFound_contained m (unlink_contained m htemp parentFd)
  refine (open_contained m htemp rfl tempMode parentFd).bind fun fd => ?_
  refine ((awaitFdopen_contained m fd).onError
    ((close_contained m fd).bind fun _ => hunlink)).bind fun _ => ?_
  refine (Program.Simulates.onError ?_ hunlink).bind fun size => .pure _
  exact (writeContent_contained m fd maxSize 0 _).ensure
    (awaitThread_contained m (close_contained m fd))

theorem payload_contained (fd : ℕ) (filename : Str) (fieldName : Option Str) :
    Contained m (readFile fd filename fieldName) := by
  have hpayload : Contained m (ioBasePayload filename) := by
    intro w
    have hcall : Contained m (Os.syscall .payload fun w => .ok ((),w) : Api Unit) :=
      syscall_contained m fun _ => rfl
    unfold ioBasePayload
    rw [hcall w]
    change (if w.env.refuses filename then _ else _) = _
    split_ifs <;> rfl
  refine ((fdopen_contained m fd).bind fun _ => hpayload.bind fun _ => ?_).onError
    (close_contained m fd)
  cases contentDisposition filename fieldName with
  | none => exact .raise _
  | some header => exact .pure _

end Helpers

/-- A session directory somewhere in a host. -/
structure Home extends Mount where
  workDirectory : Str
  encoded : fsencode workDirectory = some path
  nul_notMem : 0 ∉ path

/-- A host with one session directory and a file beside it. -/
example : Home where
  maxLinks := 40
  root := .dir ⟨1,⟨true,true,true⟩,0,0,0⟩
    [(⟨[0x73],isName_s⟩,.dir ⟨2,⟨true,true,true⟩,0,0,0⟩ []),
      (⟨[0x74],by decide⟩,.file ⟨3,⟨true,true,false⟩,0,0,0⟩ [0x78])]
  loc := [⟨[0x73],isName_s⟩]
  path := [0x2F,0x73]
  here := rfl
  resolves t := by cases t <;> rfl
  workDirectory := [0x2F,0x73]
  encoded := by decide
  nul_notMem := by decide

namespace Session

/-- The work directory of a session that is the whole file system. -/
def rootDirectory : Str := [slash]

section Operations
variable (h : Home)

/-- What the operation `x` does with its work directory in the host, it does with the root. -/
abbrev StaysInside {α : Type} (x : Str → Api α) : Prop :=
  Program.Simulates h.place (x h.workDirectory) (x rootDirectory)

theorem openWork_inside {flags : Flags} (hflags : flags.nofollow = true) (mode : Mode) :
    StaysInside h fun work => (Os.open_ work flags mode none : Api ℕ) := by
  have hpath : (Os.path h.workDirectory : Api Bytes) = pure h.path := by
    unfold Os.path
    rw [h.encoded]
    exact if_neg h.nul_notMem
  have hroot : (Os.path rootDirectory : Api Bytes) = pure [separator] := rfl
  change Program.Simulates h.place (Os.path h.workDirectory >>= fun p => _)
    (Os.path rootDirectory >>= fun p => _)
  rw [hpath,hroot]
  intro w
  exact syscall_contained h.toMount (h.openAt_path mode hflags) w

theorem mkdirIfMissing_contained {s : Str} (hs : Plain s) (fd : ℕ) :
    Contained h.toMount (mkdirIfMissing s fd) := by
  refine (mkdir_contained h.toMount hs dirMode fd).handle fun e => ?_
  cases e with
  | os cls errno => cases cls <;> first | exact .pure _ | exact .raise _
  | valueError | unicodeEncodeError | cancelled | app => exact .raise _

theorem openPart_contained (createDir : Bool) (fd : ℕ) {s : Str} (hs : Plain s) :
    Contained h.toMount (openPart createDir fd s) := by
  have hopen : Contained h.toMount (mapErrno [.eloop,.enotdir] .fileNotFound
      (Os.open_ s dirFlags dirMode (some fd))) :=
    mapErrno_contained h.toMount (open_contained h.toMount hs rfl dirMode fd)
  have hnext : Contained h.toMount (do
      let nextFd ← mapErrno [.eloop,.enotdir] .fileNotFound
        (Os.open_ s dirFlags dirMode (some fd))
      Os.close fd
      return nextFd) :=
    hopen.bind fun nextFd => (close_contained h.toMount fd).bind fun _ => .pure nextFd
  cases createDir with
  | false => exact hnext
  | true => exact (mkdirIfMissing_contained h hs fd).bind fun _ => hnext

theorem openParts_contained {α : Type} [Owning α] (createDir : Bool) {body : ℕ → Api α}
    (hbody : ∀ fd, Contained h.toMount (body fd)) (fd : ℕ) (pathParts : List Str)
    (hparts : ∀ s ∈ pathParts, Plain s) :
    Contained h.toMount (openParts createDir body fd pathParts) := by
  induction pathParts generalizing fd with
  | nil =>
    exact (hbody fd).ensureOrDrop (close_contained h.toMount fd) fun _ => drop_contained h.toMount _
  | cons s pathParts ih =>
    have hs := hparts s List.mem_cons_self
    exact ((openPart_contained h createDir fd hs).onError (close_contained h.toMount fd)).bind
      fun nextFd => ih nextFd fun t ht => hparts t (List.mem_cons_of_mem _ ht)

theorem openParent_inside {α : Type} [Owning α] {p : Str} (hp : Normalised p) (createDir : Bool)
    {body : ℕ → Str → Api α}
    (hbody : ∀ fd s, Plain s → Contained h.toMount (body fd s)) :
    StaysInside h fun work => openParent work p createDir body := by
  have hlast : Plain ((split p).getLast?.getD []) := by
    have hne : split p ≠ [] := List.splitOn_ne_nil slash p
    rw [List.getLast?_eq_some_getLast hne]
    exact hp.plain _ (List.getLast_mem hne)
  refine (openWork_inside h rfl dirMode).bind fun fd => ?_
  exact openParts_contained h createDir (fun fd => hbody fd _ hlast) fd _ fun s hs =>
    hp.plain s (List.dropLast_subset _ hs)

/-- Everything behind `normalize_sub_path` deals with a normalised path. -/
theorem normalize_inside {α : Type} (subPath : Str) {x : Str → Str → Api α}
    (hx : ∀ p, Normalised p → StaysInside h fun work => x work p) :
    StaysInside h fun work => normalize subPath >>= x work := by
  unfold normalize
  cases hn : normalizeSubPath subPath with
  | error e => exact .raise _
  | ok p => exact hx p (normalizeSubPath_normalised hn)

theorem readFile_inside (subPath : Str) (fieldName : Option Str) :
    StaysInside h fun work => readFile work subPath fieldName := by
  refine normalize_inside h subPath fun p hp => openParent_inside h hp false fun fd s hs => ?_
  refine (mapErrno_contained h.toMount (open_contained h.toMount hs rfl dirMode fd)).bind
    fun file => ?_
  refine (Program.Simulates.onError ?_ (close_contained h.toMount file)).bind fun _ =>
    payload_contained h.toMount file p fieldName
  refine (syscall_contained h.toMount (h.fstat_commutes file)).bind fun st => ?_
  split_ifs
  · exact .raise _
  · exact .raise _
  · exact .pure _

theorem statEntries_contained (fd : ℕ) (names : List Name) :
    Contained h.toMount (statEntries fd (names.map fun c => fsdecode c.bytes)) := by
  induction names with
  | nil => exact .pure _
  | cons c names ih =>
    refine Program.Simulates.bind ?_ fun entry => ih.bind fun entries => .pure _
    refine Program.Simulates.handle ((stat_contained h.toMount (plain_fsdecode c) fd).bind
      fun st => .pure _) fun e => ?_
    cases e with
    | os => exact .pure _
    | valueError | unicodeEncodeError | cancelled | app => exact .raise _

theorem listDirectory_inside (subPath : Str) :
    StaysInside h fun work => listDirectory work subPath := by
  have hrest (p : Str) {x : Str → Api ℕ} (hx : StaysInside h x) : StaysInside h fun work => do
      let fd ← x work
      let entries ← Program.ensure
        (do
          let names ← Os.listdir fd
          statEntries fd names)
        (Os.close fd)
      return Listing.mk p (entries.mergeSort fun a b => decide (a.name ≤ b.name)) := by
    refine hx.bind fun fd => (Program.Simulates.ensure ?_ (close_contained h.toMount fd)).bind
      fun entries => .pure _
    rw [Os.listdir,Program.bind_bind]
    exact (syscall_contained h.toMount (h.getdents_commutes fd)).bind fun names =>
      statEntries_contained h fd names
  unfold listDirectory
  by_cases hstrip : strip subPath = []
  · simp only [hstrip,if_true,Program.pure_bind]
    exact hrest [] (openWork_inside h rfl dirMode)
  simp only [hstrip,if_false]
  refine normalize_inside h subPath fun p hp => ?_
  have hne : p ≠ [] := by
    rintro rfl
    exact (hp.plain [] (by simp [split])).ne_nil rfl
  simp only [hne,if_false]
  exact hrest p (openParent_inside h hp false fun fd s hs =>
    mapErrno_contained h.toMount (open_contained h.toMount hs rfl dirMode fd))

theorem stageFile_inside (maxFileSize : ℕ) (subPath : Str) (content : Content) :
    StaysInside h fun work => stageFile work maxFileSize subPath content := by
  refine normalize_inside h subPath fun p hp => ?_
  refine Program.Simulates.bind (Program.Simulates.handle (openParent_inside h hp true
    fun fd s hs => (writeFileToTemp_contained h.toMount fd content maxFileSize).bind
      fun out => .pure _) fun e => ?_) fun temporaryName => .pure _
  split <;> exact .raise _

/-- What `stage_file` hands to `commit_staged_file` and to `discard_staged_file`. -/
structure Staged where
  normalisedSubPath : Str
  temporaryName : Str
  normalised : Normalised normalisedSubPath
  temporary : IsTemporary temporaryName

theorem commitStagedFile_inside (st : Staged) :
    StaysInside h fun work => commitStagedFile work st.normalisedSubPath st.temporaryName :=
  openParent_inside h st.normalised false fun fd _ hs =>
    replace_contained h.toMount st.temporary.plain hs fd fd

theorem discardStagedFile_inside (st : Staged) :
    StaysInside h fun work => discardStagedFile work st.normalisedSubPath st.temporaryName :=
  openParent_inside h st.normalised false fun fd _ _ =>
    suppressFileNotFound_contained h.toMount (unlink_contained h.toMount st.temporary.plain fd)

theorem deleteFile_inside (subPath : Str) :
    StaysInside h fun work => deleteFile work subPath := by
  refine normalize_inside h subPath fun p hp => openParent_inside h hp false fun fd s hs => ?_
  refine (stat_contained h.toMount hs fd).bind fun st => ?_
  split_ifs
  · exact .bind (.raise _) fun _ => unlink_contained h.toMount hs fd
  · exact unlink_contained h.toMount hs fd


theorem openParts_returns {α : Type} [Owning α] {P : α → Prop} (createDir : Bool) {body : ℕ → Api α}
    (hbody : ∀ fd, (body fd).Returns P) (fd : ℕ) (pathParts : List Str) :
    (openParts createDir body fd pathParts).Returns P := by
  induction pathParts generalizing fd with
  | nil => exact (hbody fd).ensureOrDrop _ _
  | cons s pathParts ih => exact (Program.Returns.trivial _).bind fun nextFd _ => ih nextFd

theorem writeFileToTemp_returns (parentFd : ℕ) (content : Content) (maxSize : ℕ) :
    (writeFileToTemp parentFd content maxSize).Returns fun out => IsTemporary out.1 := by
  have htoken : (Os.tokenUrlsafe : Api Str).Returns fun token =>
      ∃ digits : List (Fin 64), token = digits.map Os.digit := by
    intro w token htoken
    cases htoken
    exact ⟨w.env.random w.calls,rfl⟩
  refine htoken.bind fun token hdigits => (Program.Returns.trivial _).bind fun fd _ =>
    (Program.Returns.trivial _).bind fun _ _ => (Program.Returns.trivial _).bind fun size _ =>
      .pure ?_
  obtain ⟨digits,rfl⟩ := hdigits
  exact ⟨digits,rfl⟩

theorem stageFile_returns (work : Str) (maxFileSize : ℕ) (subPath : Str) (content : Content) :
    (stageFile work maxFileSize subPath content).Returns fun out =>
      ∃ st : Staged, out = (st.normalisedSubPath,st.temporaryName) := by
  have hnormalize : (normalize subPath).Returns Normalised := by
    unfold normalize
    cases hn : normalizeSubPath subPath with
    | error e => exact .raise _
    | ok p => exact .pure (normalizeSubPath_normalised hn)
  refine hnormalize.bind fun p hp => Program.Returns.bind (P := IsTemporary) ?_
    fun t ht => .pure ⟨⟨p,t,hp,ht⟩,rfl⟩
  refine Program.Returns.handle ?_ fun e => by split <;> exact .raise _
  refine (Program.Returns.trivial _).bind fun fd _ => openParts_returns true (fun fd => ?_) fd _
  exact (writeFileToTemp_returns fd content maxFileSize).bind fun out hout =>
    Program.Returns.pure (P := IsTemporary) hout

theorem writeFile_inside (maxFileSize : ℕ) (subPath : Str) (content : Content) :
    StaysInside h fun work => writeFile work maxFileSize subPath content := by
  refine (stageFile_inside h maxFileSize subPath content).bind_of
    (stageFile_returns rootDirectory maxFileSize subPath content) ?_
  rintro _ ⟨st,rfl⟩
  refine (commitStagedFile_inside h st).handle fun e => ?_
  refine (suppressOSError_simulates h.toMount (discardStagedFile_inside h st)).bind fun _ => ?_
  split <;> exact .raise _

end Operations

/-- A file operation with its arguments. A staged file is one that `stage_file` returned. -/
inductive FileOp
  | readFile (subPath : Str) (fieldName : Option Str)
  | listDirectory (subPath : Str)
  | stageFile (maxFileSize : ℕ) (subPath : Str) (content : Content)
  | commitStagedFile (staged : Staged)
  | discardStagedFile (staged : Staged)
  | writeFile (maxFileSize : ℕ) (subPath : Str) (content : Content)
  | deleteFile (subPath : Str)

/-- What an operation returns; of a payload also the bytes it streams. -/
inductive FileResult
  | payload (payload : Payload) (body : Bytes)
  | listing (listing : Listing)
  | staged (normalisedSubPath temporaryName : Str)
  | none
  deriving DecidableEq, Repr

def FileOp.run (work : Str) : FileOp → Api FileResult
  | .readFile subPath fieldName => do
    let payload ← Session.readFile work subPath fieldName
    let body ← Os.read payload.fd
    return .payload payload body
  | .listDirectory subPath => do
    let listing ← Session.listDirectory work subPath
    return .listing listing
  | .stageFile maxFileSize subPath content => do
    let (normalisedSubPath,temporaryName) ← Session.stageFile work maxFileSize subPath content
    return .staged normalisedSubPath temporaryName
  | .commitStagedFile st => do
    Session.commitStagedFile work st.normalisedSubPath st.temporaryName
    return .none
  | .discardStagedFile st => do
    Session.discardStagedFile work st.normalisedSubPath st.temporaryName
    return .none
  | .writeFile maxFileSize subPath content => do
    Session.writeFile work maxFileSize subPath content
    return .none
  | .deleteFile subPath => do
    Session.deleteFile work subPath
    return .none

theorem run_inside (h : Home) (op : FileOp) : StaysInside h fun work => op.run work := by
  cases op with
  | readFile subPath fieldName =>
    exact (readFile_inside h subPath fieldName).bind fun payload =>
      (read_contained h.toMount payload.fd).bind fun _ => .pure _
  | listDirectory subPath => exact (listDirectory_inside h subPath).bind fun _ => .pure _
  | stageFile maxFileSize subPath content =>
    exact (stageFile_inside h maxFileSize subPath content).bind fun _ => .pure _
  | commitStagedFile st => exact (commitStagedFile_inside h st).bind fun _ => .pure _
  | discardStagedFile st => exact (discardStagedFile_inside h st).bind fun _ => .pure _
  | writeFile maxFileSize subPath content =>
    exact (writeFile_inside h maxFileSize subPath content).bind fun _ => .pure _
  | deleteFile subPath => exact (deleteFile_inside h subPath).bind fun _ => .pure _

/-- Noninterference of the file operations. In any two hosts that hold the same session tree an
operation ends alike and leaves the same tree; nothing outside of the session changes; and the
outcome is the one of a kernel that refuses to follow any symbolic link. -/
theorem file_operation_contained (h₁ h₂ : Home) (op : FileOp) (w : World) :
    ∃ out w', op.run h₁.workDirectory (h₁.place w) = (out,h₁.place w') ∧
      op.run h₂.workDirectory (h₂.place w) = (out,h₂.place w') ∧
      op.run rootDirectory {w with env := {w.env with maxLinks := 0}} = (out,w') ∧
      (∀ q, ¬h₁.loc <+: q → ¬q <+: h₁.loc →
        (h₁.place w').root.get q = (h₁.place w).root.get q) ∧
      ∀ q, q <+: h₁.loc → q ≠ h₁.loc →
        ((h₁.place w').root.get q).map (fun n => (n.attr,n.entries.map Prod.fst)) =
          ((h₁.place w).root.get q).map fun n => (n.attr,n.entries.map Prod.fst) := by
  -- a host brings its own limit on links, so the one of `w` does not matter
  have hlinks (h : Home) : h.place w = h.place {w with env := {w.env with maxLinks := 0}} := rfl
  refine ⟨_,_,?_,?_,rfl,?_,?_⟩
  · rw [hlinks h₁]
    exact run_inside h₁ op _
  · rw [hlinks h₂]
    exact run_inside h₂ op _
  · intro q hm hq
    rw [h₁.get_place_apart _ hm hq,h₁.get_place_apart _ hm hq]
  · intro q hq hne
    rw [h₁.get_place_above _ hq hne,h₁.get_place_above _ hq hne]

end Session
end CodeExecutorApi
