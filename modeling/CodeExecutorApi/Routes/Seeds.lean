import CodeExecutorApi.Routes.Refusal
import CodeExecutorApi.Routes.Seeding
import CodeExecutorApi.Sessions.Layout

/-! routes/sessions.py: a request to create a session, with the files that it starts with, on a host
where nothing fails. -/
namespace CodeExecutorApi
open Python Posix Machine Session

/-- What the handler returns. -/
inductive CreateResponse
  | created (sessionId : Str)
  | error (status : ℕ) (message : Str)
  deriving DecidableEq, Repr

structure CreateRequest where
  multipart : Bool
  body : List (Except (Exc AppError) Part)

section Handling
variable (limits : Limits) (workDirectory sessionId : Str) (host : Host)

/-- The parser gives a part or raises. -/
def seedRead (read : Except (Exc AppError) Part) : Api Unit :=
  match read with
  | .error exc => .raise exc
  | .ok part => seedPart workDirectory limits.maxFileSize part

/-- The loop over the parts. -/
def seedAll : List (Except (Exc AppError) Part) → Api Unit
  | [] => pure ()
  | read :: reads => do
    seedRead limits workDirectory read
    seedAll reads

/-- Delete the new session, unless it is gone already. -/
def deleteNew : Api Unit := do
  if host.registered = false then .raise (.app .sessionNotFound)
  await host.delete .sessionLockTimeout

/-- The `except` clauses around the loop. A `CancelledError` is no `Exception`. -/
def unseeded (exc : Exc AppError) : Api CreateResponse :=
  match exc with
  | .app (.sessionResourceLimitReached message) => do
    deleteNew host
    return .error 413 (lit message)
  | .app .badHttpMessage => do
    deleteNew host
    return .error 400 (lit "Request body is not valid multipart/form-data")
  | .cancelled => .raise .cancelled
  | exc => do
    deleteNew host
    .raise exc

def handleCreateSession (request : CreateRequest) : Api CreateResponse := do
  let created ← (create host).attempt
  match created with
  | .error (.app .sessionLimitReached) => pure (.error 503 (lit "Session capacity reached"))
  | .error (.app .quotaSetupFailed) => pure (.error 500 (lit "Session storage quota setup failed"))
  | .error exc => .raise exc
  | .ok () =>
    let seeded ← if request.multipart then (seedAll limits workDirectory request.body).attempt
      else pure (.ok ())
    match seeded with
    | .ok () => pure (.created sessionId)
    | .error exc => unseeded host exc

end Handling

/-- The status of the answer, if there is one. -/
def createStatus : Except (Exc AppError) CreateResponse → Option ℕ
  | .ok (.created _) => some 200
  | .ok (.error status _) => some status
  | .error exc => statusOf (.error ⟨.creation,exc⟩)

/-- What the parser makes of a file part: its filename and its content, or an exception. -/
abbrev FileRead := Except (Exc AppError) (Str × Content)

/-- The part of a file. -/
def Part.ofFile (file : Str × Content) : Part :=
  ⟨some (lit "attachments"),some file.1,file.2,fun _ => .error .encoding⟩

/-- The exceptions that the parser raises on a body it cannot read. -/
def Malformed (exc : Exc AppError) : Prop :=
  exc = .valueError ∨ exc = .app .assertionError ∨ exc = .app .badHttpMessage

/-- What cannot be read of the part was rejected by the parser. -/
def Parsed : FileRead → Prop
  | .error exc => Malformed exc
  | .ok file => ∀ exc, .error exc ∈ prepareReader file.2 → Malformed exc

/-- The status that a part is refused with whatever else is in the session. -/
def refusedWith (maxFileSize : ℕ) : FileRead → Option ℕ
  | .error _ => some 400
  | .ok file =>
    match normalizeSubPath file.1 with
    | .error _ => some 400
    | .ok _ =>
      match file.2.reception maxFileSize with
      | .error (.app .requestEntityTooLarge) => some 413
      | .error _ => some 400
      | .ok _ => none

/-- After files were written at `places`, a part is written or refused as the handlers say. If it has
no header that can be read, a `BadHttpMessage` was raised. The directory of its path has names that
can be and no file on the way. If its body fits, nothing but a file can be at its path. -/
def Answerable (maxFileSize : ℕ) (places : List Loc) : FileRead → Prop
  | .error exc => exc = .app .badHttpMessage
  | .ok file => ∀ p, normalizeSubPath file.1 = .ok p →
      (∃ dir, place (split p).dropLast = some dir ∧ ∀ k ∈ places, ¬k <+: dir) ∧
        match file.2.reception maxFileSize with
        | .ok _ => ∃ loc, place (split p) = some loc ∧ ∀ k ∈ places, ¬loc <+: k.dropLast
        | .error exc => exc = .app .requestEntityTooLarge ∨ exc = .app .badHttpMessage

def FileRead.place : FileRead → Option Loc
  | .error _ => none
  | .ok file => placeOf file.1

/-- So it is for every part up to the first that is refused. -/
def Sound (maxFileSize : ℕ) : List Loc → List FileRead → Prop
  | _, [] => True
  | places, read :: reads => Answerable maxFileSize places read ∧
      (refusedWith maxFileSize read = none → Sound maxFileSize (places ++ read.place.toList) reads)

/-- The path of the part has no component that is the name of a temporary file. -/
def FileRead.Apart (env : Environment) (read : FileRead) : Prop :=
  ∀ file p, read = .ok file → normalizeSubPath file.1 = .ok p → Clear env p

/-- A session as it is made, and a run that ends in `v`. -/
structure NewSession (reads : List FileRead) (w v : World) : Prop where
  serene : Serene w.env v.calls
  empty : ∃ a, w.root = .dir a [] ∧ a.mode = dirMode
  apart : ∀ read ∈ reads, read.Apart w.env

/-- The status of an answer to the exception that ended the loop. -/
def seedStatus : Exc AppError → Option ℕ
  | .app (.sessionResourceLimitReached _) => some 413
  | .app .badHttpMessage => some 400
  | exc => statusOf (.error ⟨.creation,exc⟩)

/-- Sessions can be created, locked and deleted, and there is a free slot. -/
structure Host.Willing (host : Host) : Prop where
  full : host.full = false
  mkdtemp : host.mkdtemp = none
  quota : host.quota = true
  registered : host.registered = true
  lock : host.lock = .granted
  current : host.current = true
  slot : host.slot = .granted
  delete : host.delete = .granted

section Answers
variable {limits : Limits} {sessionId : Str} {host : Host} {w v : World}
  {body : List (Except (Exc AppError) Part)} {exc : Exc AppError}

theorem unseeded_status (h : host.Willing) (exc : Exc AppError) (w : World) :
    createStatus (unseeded host exc w).1 = seedStatus exc ∧ (unseeded host exc w).2 = w := by
  have hdelete : deleteNew host = pure () := by
    unfold deleteNew
    rw [h.registered,h.delete]
    rfl
  unfold unseeded
  rw [hdelete]
  cases exc with
  | app e => cases e <;> exact ⟨rfl,rfl⟩
  | os | valueError | unicodeEncodeError | cancelled => exact ⟨rfl,rfl⟩

theorem create_run (h : host.Willing) (hi : ∀ n, w.env.interrupt n = false) :
    (create host).attempt w = (.ok (.ok ()),w.tick) := by
  have hrun : create host w = (.ok (),w.tick) := by
    unfold create
    rw [h.full,h.mkdtemp,h.quota]
    change Os.checkpoint w = _
    unfold Os.checkpoint
    rw [hi]
    rfl
  unfold Program.attempt
  rw [hrun]

theorem handleCreateSession_ok (h : host.Willing) (hi : ∀ n, w.env.interrupt n = false)
    (hrun : seedAll limits rootDirectory body w.tick = (.ok (),v)) :
    handleCreateSession limits rootDirectory sessionId host ⟨true,body⟩ w =
      (.ok (.created sessionId),v) := by
  have hattempt : (seedAll limits rootDirectory body).attempt w.tick = (.ok (.ok ()),v) := by
    unfold Program.attempt
    rw [hrun]
  exact (Program.bind_run (create_run h hi)).trans (Program.bind_run hattempt)

theorem handleCreateSession_error (h : host.Willing) (hi : ∀ n, w.env.interrupt n = false)
    (hrun : seedAll limits rootDirectory body w.tick = (.error exc,v)) :
    handleCreateSession limits rootDirectory sessionId host ⟨true,body⟩ w =
      unseeded host exc v := by
  have hattempt : (seedAll limits rootDirectory body).attempt w.tick = (.ok (.error exc),v) := by
    unfold Program.attempt
    rw [hrun]
  exact (Program.bind_run (create_run h hi)).trans (Program.bind_run hattempt)

/-- After the loop no more calls are made. -/
theorem handleCreateSession_world (h : host.Willing) (hi : ∀ n, w.env.interrupt n = false) :
    (handleCreateSession limits rootDirectory sessionId host ⟨true,body⟩ w).2 =
      (seedAll limits rootDirectory body w.tick).2 := by
  rcases hrun : seedAll limits rootDirectory body w.tick with ⟨exc | _,v⟩
  · rw [handleCreateSession_error h hi hrun]
    exact (unseeded_status h exc v).2
  · rw [handleCreateSession_ok h hi hrun]

end Answers

/-- Files with these places and contents were written. -/
def Seeded (last : ℕ) (entries : List (Loc × Node)) (w : World) : Prop :=
  Site last (entries.map fun e => e.1.dropLast) (written entries fun _ => none) [] w

section Conditions
variable {entries : List (Loc × Node)} {file : Str × Content} {p : Str} {dir loc : Loc}
  {maxFileSize : ℕ}

theorem way_iff : Way (written entries fun _ => none) p dir ↔
    place (split p).dropLast = some dir ∧ ∀ k ∈ entries.map Prod.fst, ¬k <+: dir := by
  refine and_congr_right fun _ => ⟨fun h k hk hbelow => ?_,fun h k hk => ?_⟩
  · obtain ⟨e,he,rfl⟩ := List.mem_map.mp hk
    exact (written_eq_none (h _ hbelow)).2 e he rfl
  · exact written_other fun e he heq => h k (List.mem_map.mpr ⟨e,he,heq⟩) hk

/-- A path never leads to a directory on the way to it. -/
theorem mem_made_iff {ds : List Loc} (hloc : place (split p) = some loc)
    (hdir : place (split p).dropLast = some dir) :
    loc ∈ made (ds ++ [dir]) ↔ ∃ d ∈ ds, loc <+: d := by
  obtain ⟨q,c,hq,_,rfl⟩ := place_split hloc
  cases hq.symm.trans hdir
  rw [made_concat]
  constructor
  · rintro ((hnil | h) | h)
    · simp at hnil
    · exact h
    · exact absurd h.length_le (by simp)
  · exact fun h => .inl (.inr h)

theorem reception_error {reads : List (Except (Exc AppError) Bytes)} {maxSize size : ℕ}
    {exc : Exc AppError} (h : reception maxSize size reads = .error exc) :
    exc = .app .requestEntityTooLarge ∨ .error exc ∈ reads := by
  induction reads generalizing size with
  | nil => cases h
  | cons read reads ih =>
    cases read with
    | error e =>
      cases h
      exact .inr List.mem_cons_self
    | ok chunk =>
      cases chunk with
      | nil => cases h
      | cons byte chunk =>
        change (if maxSize < size + (byte :: chunk).length then _ else _) = _ at h
        split_ifs at h
        · cases h
          exact .inl rfl
        · exact (ih h).imp_right (List.mem_cons_of_mem _)

theorem Parsed.reception {exc : Exc AppError} (h : Parsed (.ok file))
    (he : file.2.reception maxFileSize = .error exc) :
    exc = .app .requestEntityTooLarge ∨ Malformed exc :=
  (reception_error he).imp_right (h exc)

theorem seedStatus_barrier {b : Barrier} {exc : Exc AppError} (h : b.Raises exc) :
    seedStatus exc = some 500 := by
  cases b with
  | missing => rcases h with rfl | rfl <;> rfl
  | refused => rcases h with (rfl | rfl) | rfl <;> rfl

theorem seedStatus_badName {exc : Exc AppError} (h : IsBadName exc) :
    seedStatus exc = some 500 := by
  rcases h with rfl | rfl <;> rfl

section Paths
variable {exc : Exc AppError} (hq : normalizeSubPath file.1 = .ok p)
include hq

/-- A part whose body cannot be read to its end. -/
theorem refusedWith_unread (he : file.2.reception maxFileSize = .error exc) :
    refusedWith maxFileSize (.ok file) =
      some (if exc = .app .requestEntityTooLarge then 413 else 400) := by
  rw [refusedWith,hq]
  dsimp only
  rw [he]
  split_ifs with h
  · rw [h]
  · cases exc with
    | app e => cases e <;> first | rfl | exact absurd rfl h
    | os | valueError | unicodeEncodeError | cancelled => rfl

theorem refusedWith_fits (h : file.2.Fits maxFileSize) :
    refusedWith maxFileSize (.ok file) = none := by
  obtain ⟨n,hn⟩ := h
  rw [refusedWith,hq]
  dsimp only
  rw [hn]

theorem answerable_unread (he : file.2.reception maxFileSize = .error exc) :
    Answerable maxFileSize (entries.map Prod.fst) (.ok file) ↔
      (∃ dir, Way (written entries fun _ => none) p dir) ∧
        (exc = .app .requestEntityTooLarge ∨ exc = .app .badHttpMessage) := by
  simp only [Answerable,hq,he,way_iff,Except.ok.injEq,forall_eq']

theorem answerable_fits (h : file.2.Fits maxFileSize) :
    Answerable maxFileSize (entries.map Prod.fst) (.ok file) ↔
      (∃ dir, Way (written entries fun _ => none) p dir) ∧
        ∃ loc, place (split p) = some loc ∧ ∀ k ∈ entries.map Prod.fst, ¬loc <+: k.dropLast := by
  obtain ⟨n,hn⟩ := h
  simp only [Answerable,hq,hn,way_iff,Except.ok.injEq,forall_eq']

end Paths
end Conditions

section Seeding
variable {limits : Limits} {last : ℕ} {entries : List (Loc × Node)} {w : World} {read : FileRead}
  {reads : List FileRead}

theorem unwritable_status {p : Str} {file : Str × Content} {exc : Exc AppError} {maxFileSize : ℕ}
    (hq : normalizeSubPath file.1 = .ok p) (hparsed : Parsed (.ok file))
    (h : Unwritable maxFileSize (entries.map fun e => e.1.dropLast) (written entries fun _ => none)
      p file.2 exc) :
    (Answerable maxFileSize (entries.map Prod.fst) (.ok file) ∧ ∃ status,
        refusedWith maxFileSize (.ok file) = some status ∧ seedStatus exc = some status) ∨
      ¬Answerable maxFileSize (entries.map Prod.fst) (.ok file) ∧ seedStatus exc = some 500 := by
  cases h with
  | refused h =>
    cases h with
    | blocked h he =>
      refine .inr ⟨fun hgood => ?_,seedStatus_barrier he⟩
      cases hread : file.2.reception maxFileSize with
      | error e =>
        obtain ⟨⟨dir,hdir⟩,_⟩ := (answerable_unread hq hread).mp hgood
        exact h dir hdir
      | ok n =>
        obtain ⟨⟨dir,hdir⟩,_⟩ := (answerable_fits hq ⟨n,hread⟩).mp hgood
        exact h dir hdir
    | @unread dir e hdir he =>
      rw [answerable_unread hq he,refusedWith_unread hq he]
      rcases hparsed.reception he with rfl | rfl | rfl | rfl
      · exact .inl ⟨⟨⟨dir,hdir⟩,.inl rfl⟩,_,rfl,rfl⟩
      · exact .inr ⟨by simp,rfl⟩
      · exact .inr ⟨by simp,rfl⟩
      · exact .inl ⟨⟨⟨dir,hdir⟩,.inr rfl⟩,_,rfl,rfl⟩
  | badName hdir hfits hname he =>
    refine .inr ⟨fun hgood => ?_,seedStatus_badName he⟩
    obtain ⟨_,loc,hloc,_⟩ := (answerable_fits hq hfits).mp hgood
    obtain ⟨_,c,_,hc,_⟩ := place_split hloc
    cases hc.symm.trans hname
  | isDirectory hdir hfits hk hmade =>
    refine .inr ⟨fun hgood => ?_,rfl⟩
    obtain ⟨_,loc,hloc,hnot⟩ := (answerable_fits hq hfits).mp hgood
    cases hk.symm.trans hloc
    obtain ⟨d,hd,hbelow⟩ := (mem_made_iff hk hdir.1).mp hmade
    obtain ⟨e,he,rfl⟩ := List.mem_map.mp hd
    exact hnot e.1 (List.mem_map_of_mem he) hbelow

/-- One turn of the loop. -/
theorem ends_seedRead (h : Seeded last entries w) (henv : Serene w.env last) (hparsed : Parsed read)
    (hapart : read.Apart w.env)
    (hlast : (seedRead limits rootDirectory (read.map Part.ofFile) w).2.calls ≤ last) :
    (seedRead limits rootDirectory (read.map Part.ofFile)).Ends w fun r v => v.env = w.env ∧
      match r with
      | .ok _ => Answerable limits.maxFileSize (entries.map Prod.fst) read ∧
          refusedWith limits.maxFileSize read = none ∧
          ∃ file e, read = .ok file ∧ Placed file e ∧ Seeded last (entries ++ [e]) v
      | .error exc => (Answerable limits.maxFileSize (entries.map Prod.fst) read ∧ ∃ status,
            refusedWith limits.maxFileSize read = some status ∧ seedStatus exc = some status) ∨
          ¬Answerable limits.maxFileSize (entries.map Prod.fst) read ∧
            seedStatus exc = some 500 := by
  cases read with
  | error exc =>
    refine ⟨rfl,?_⟩
    change (exc = .app .badHttpMessage ∧ ∃ status, some 400 = some status ∧
      seedStatus exc = some status) ∨ ¬exc = .app .badHttpMessage ∧ seedStatus exc = some 500
    rcases hparsed with rfl | rfl | rfl
    · exact .inr ⟨by simp,rfl⟩
    · exact .inr ⟨by simp,rfl⟩
    · exact .inl ⟨rfl,_,rfl,rfl⟩
  | ok file =>
    change (writeFile rootDirectory limits.maxFileSize file.1 file.2).Ends w _
    cases hq : normalizeSubPath file.1 with
    | error e =>
      have hstage : (stageFile rootDirectory limits.maxFileSize file.1 file.2).Ends w fun r v =>
          v.env = w.env ∧ r = .error (.app (.validationError e)) := by
        unfold stageFile Session.normalize
        rw [hq]
        exact ⟨rfl,rfl⟩
      refine hstage.bind (fun st v hv => by cases hv.2) fun exc v hv => ⟨hv.1,.inl ⟨?_,400,?_⟩⟩
      · intro p hp
        cases hq.symm.trans hp
      · cases hv.2
        exact ⟨by rw [refusedWith,hq],rfl⟩
    | ok p =>
      refine (h.write henv hq (hapart file p rfl hq) hlast).mono ?_
      rintro r v ⟨hv,hr⟩
      refine ⟨hv,?_⟩
      cases r with
      | error exc => exact unwritable_status hq hparsed hr
      | ok =>
        obtain ⟨dir,loc,b,hdir,hfits,hloc,hnot,hsite⟩ := hr
        refine ⟨(answerable_fits hq hfits).mpr ⟨⟨dir,hdir⟩,loc,hloc,fun k hk hbelow => hnot ?_⟩,
          refusedWith_fits hq hfits,file,(loc,.file b file.2.body),rfl,⟨p,b,hq,hloc,rfl⟩,?_⟩
        · obtain ⟨e,he,rfl⟩ := List.mem_map.mp hk
          exact (mem_made_iff hloc hdir.1).mpr ⟨_,List.mem_map_of_mem he,hbelow⟩
        · obtain ⟨q,c,hq',_,rfl⟩ := place_split hloc
          cases hq'.symm.trans hdir.1
          unfold Seeded
          rw [List.map_append,written_concat]
          simpa using hsite

theorem seedRead_later (read : Except (Exc AppError) Part) :
    (seedRead limits rootDirectory read).Within World.Later := by
  cases read with
  | error exc => exact .raise _
  | ok part =>
    cases hname : part.filename with
    | none =>
      simp only [seedRead,seedPart,hname]
      exact .raise _
    | some q =>
      simp only [seedRead,seedPart,hname]
      exact writeFile_later q _ _

theorem seedAll_later (reads : List (Except (Exc AppError) Part)) :
    (seedAll limits rootDirectory reads).Within World.Later := by
  induction reads with
  | nil => exact .pure _
  | cons read reads ih => exact (seedRead_later read).bind fun _ => ih

/-- The loop writes every part, or it ends with the first that is refused or cannot be written. -/
theorem ends_seedAll (h : Seeded last entries w) (henv : Serene w.env last)
    (hparsed : ∀ read ∈ reads, Parsed read) (hapart : ∀ read ∈ reads, read.Apart w.env)
    (hlast : (seedAll limits rootDirectory (reads.map (Except.map Part.ofFile)) w).2.calls ≤ last) :
    (seedAll limits rootDirectory (reads.map (Except.map Part.ofFile))).Ends w fun r v =>
      match r with
      | .ok _ => Sound limits.maxFileSize (entries.map Prod.fst) reads ∧
          reads.findSome? (refusedWith limits.maxFileSize) = none ∧
          ∃ files es, reads = files.map .ok ∧ List.Forall₂ Placed files es ∧
            Seeded last (entries ++ es) v
      | .error exc => (Sound limits.maxFileSize (entries.map Prod.fst) reads ∧ ∃ status,
            reads.findSome? (refusedWith limits.maxFileSize) = some status ∧
              seedStatus exc = some status) ∨
          ¬Sound limits.maxFileSize (entries.map Prod.fst) reads ∧ seedStatus exc = some 500 := by
  induction reads generalizing entries w with
  | nil =>
    refine ⟨trivial,rfl,[],[],rfl,.nil,?_⟩
    rw [List.append_nil]
    exact h
  | cons read reads ih =>
    obtain ⟨hread,hreads⟩ := List.forall_mem_cons.mp hparsed
    obtain ⟨hfirst,hrest⟩ := List.forall_mem_cons.mp hapart
    have hturn := ends_seedRead h henv hread hfirst
      ((World.later_bind (fun _ => seedAll_later _) w).calls.trans hlast)
    rw [List.map_cons,seedAll] at hlast ⊢
    rcases hrun : seedRead limits rootDirectory (read.map Part.ofFile) w with ⟨exc | u,v⟩
    · refine (Program.ends_of_run (Program.bind_run_error hrun)).mpr ?_
      obtain ⟨_,⟨hgood,status,hstatus,hexc⟩ | ⟨hbad,hexc⟩⟩ := (Program.ends_of_run hrun).mp hturn
      · refine .inl ⟨⟨hgood,fun hnone => ?_⟩,status,?_,hexc⟩
        · cases hnone.symm.trans hstatus
        · rw [List.findSome?_cons,hstatus]
      · exact .inr ⟨fun hsound => hbad hsound.1,hexc⟩
    · obtain ⟨hv,hgood,hnone,file,e,rfl,hplaced,hseeded⟩ := (Program.ends_of_run hrun).mp hturn
      have hsame := Program.bind_run (f := fun _ =>
        seedAll limits rootDirectory (reads.map (Except.map Part.ofFile))) hrun
      have hplace : (entries ++ [e]).map Prod.fst =
          entries.map Prod.fst ++ (FileRead.place (.ok file)).toList := by
        obtain ⟨p,b,hq,hloc,_⟩ := hplaced
        rw [FileRead.place,placeOf,hq]
        simp [hloc]
      have hsound : Sound limits.maxFileSize (entries.map Prod.fst) (.ok file :: reads) ↔
          Sound limits.maxFileSize ((entries ++ [e]).map Prod.fst) reads := by
        rw [hplace]
        exact ⟨fun hs => hs.2 hnone,fun hs => ⟨hgood,fun _ => hs⟩⟩
      have hfind : (.ok file :: reads).findSome? (refusedWith limits.maxFileSize) =
          reads.findSome? (refusedWith limits.maxFileSize) := by
        rw [List.findSome?_cons,hnone]
      rw [hsame] at hlast
      have hrest := ih hseeded (hv ▸ henv) hreads (hv ▸ hrest) hlast
      unfold Program.Ends at hrest ⊢
      rw [hsame,hsound,hfind]
      rcases hend : seedAll limits rootDirectory (reads.map (Except.map Part.ofFile)) v
        with ⟨exc | _,x⟩
      · rw [hend] at hrest
        exact hrest
      · rw [hend] at hrest
        obtain ⟨hs,hno,files,es,rfl,hplaced',hx⟩ := hrest
        refine ⟨hs,hno,file :: files,e :: es,rfl,.cons hplaced hplaced',?_⟩
        rw [List.append_cons]
        exact hx

variable {sessionId : Str} {host : Host} {v : World} {r : Except (Exc AppError) CreateResponse}

/-- A session is created with the files of sound parts. Otherwise the first part that is refused
decides, or the answer is an internal error. -/
theorem ends_createSession (h : host.Willing) (hparsed : ∀ read ∈ reads, Parsed read)
    (hrun : handleCreateSession limits rootDirectory sessionId host
      ⟨true,reads.map (Except.map Part.ofFile)⟩ w = (r,v)) (hnew : NewSession reads w v) :
    (r = .ok (.created sessionId) ∧ Sound limits.maxFileSize [] reads ∧
      reads.findSome? (refusedWith limits.maxFileSize) = none ∧
      ∃ files es, reads = files.map .ok ∧ List.Forall₂ Placed files es ∧ Seeded v.calls es v) ∨
    (Sound limits.maxFileSize [] reads ∧ ∃ status,
      reads.findSome? (refusedWith limits.maxFileSize) = some status ∧
        createStatus r = some status) ∨
    ¬Sound limits.maxFileSize [] reads ∧ createStatus r = some 500 := by
  have hi := hnew.serene.steady.interrupt
  obtain ⟨a,hroot,hmode⟩ := hnew.empty
  have hseeded : Seeded v.calls [] w.tick := site_empty hroot hmode
  have hworld : v = (seedAll limits rootDirectory (reads.map (Except.map Part.ofFile)) w.tick).2 :=
    (congrArg Prod.snd hrun.symm).trans (handleCreateSession_world h hi)
  have hends := ends_seedAll hseeded hnew.serene hparsed hnew.apart
    (congrArg World.calls hworld.symm).le
  rcases hloop : seedAll limits rootDirectory (reads.map (Except.map Part.ofFile)) w.tick
    with ⟨exc | _,x⟩
  · have hend := (Program.ends_of_run hloop).mp hends
    have hsame := hrun.symm.trans (handleCreateSession_error h hi hloop)
    have hstatus := (unseeded_status h exc x).1
    rw [← hsame] at hstatus
    rcases hend with ⟨hsound,status,hfind,hexc⟩ | ⟨hunsound,hexc⟩
    · exact .inr (.inl ⟨hsound,status,hfind,hstatus.trans hexc⟩)
    · exact .inr (.inr ⟨hunsound,hstatus.trans hexc⟩)
  · obtain ⟨hsound,hfind,files,es,hfiles,hplaced,hx⟩ := (Program.ends_of_run hloop).mp hends
    cases hrun.symm.trans (handleCreateSession_ok h hi hloop)
    exact .inl ⟨rfl,hsound,hfind,files,es,hfiles,hplaced,hx⟩

end Seeding
end CodeExecutorApi
