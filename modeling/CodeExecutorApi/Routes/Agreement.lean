import CodeExecutorApi.Routes.Seeds

/-! The same files uploaded with a new session and attached to a first request to execute code. -/
namespace CodeExecutorApi
open Python Posix Machine Session

/-- The part is a text field with this text. -/
def Part.Reads (name : Str) (maxSize : ℕ) (part : Part) (text : Str) : Prop :=
  part.name = some name ∧ part.content.Fits maxSize ∧ part.decode part.content.body = .ok text

/-- A `language` field with a supported language. -/
def Part.IsLanguage (part : Part) : Prop :=
  ∃ text, part.Reads (lit "language") 64 text ∧ trim text ∈ languages

/-- A `code` field without null bytes. -/
def Part.IsCode (limits : Limits) (part : Part) : Prop :=
  ∃ text, part.Reads (lit "code") limits.maxCodeLength text ∧ 0 ∉ text

/-- The body has the file parts as attachments, with valid text fields anywhere between them. -/
inductive Attaches (limits : Limits) :
    List FileRead → List (Except (Exc AppError) Part) → Prop
  | nil : Attaches limits [] []
  | file (read : FileRead) {reads : List FileRead} {body : List (Except (Exc AppError) Part)}
    (h : Attaches limits reads body) :
    Attaches limits (read :: reads) (read.map Part.ofFile :: body)
  | field {part : Part} {reads : List FileRead} {body : List (Except (Exc AppError) Part)}
    (hpart : part.IsLanguage ∨ part.IsCode limits) (h : Attaches limits reads body) :
    Attaches limits reads (.ok part :: body)

/-- Such a body with both fields. -/
structure Requests (limits : Limits) (reads : List FileRead)
    (body : List (Except (Exc AppError) Part)) : Prop where
  attaches : Attaches limits reads body
  language : ∃ part, .ok part ∈ body ∧ part.IsLanguage
  code : ∃ part, .ok part ∈ body ∧ part.IsCode limits

/-- The same directories, and at each place the same regular file or symbolic link or none. -/
def SameTree (t t' : Node) : Prop := t.dirs = t'.dirs ∧ ∀ loc, dataAt t loc = dataAt t' loc

/-- A request to create a session with the parts and one to execute code with them as attachments
both accept them, so that the trees are the same when the code is to be started, or both refuse them
with the same client error. -/
inductive Agrees (limits : Limits) (sessionId : Str) (creating executing : Host)
    (reads : List FileRead) (body : List (Except (Exc AppError) Part)) (w w' : World) : Prop
  | accepted {v v' : World}
    (seeded : handleCreateSession limits rootDirectory sessionId creating
      ⟨true,reads.map (Except.map Part.ofFile)⟩ w = (.ok (.created sessionId),v))
    (attached : Starts limits rootDirectory executing ⟨true,false,body⟩ w' v')
    (same : SameTree v.root v'.root) : Agrees limits sessionId creating executing reads body w w'
  | refused {status : ℕ} (client : status = 400 ∨ status = 413)
    (seeded : createStatus (handleCreateSession limits rootDirectory sessionId creating
      ⟨true,reads.map (Except.map Part.ofFile)⟩ w).1 = some status)
    (attached : statusOf (handleExecute limits rootDirectory executing ⟨true,false,body⟩ w').1 =
      some status)
    (notRun : ∀ v, ¬Starts limits rootDirectory executing ⟨true,false,body⟩ w' v) :
    Agrees limits sessionId creating executing reads body w w'

/-- Once the body is read, there is a valid language and a valid code. -/
structure Fields.Awaits (limits : Limits) (fields : Fields)
    (body : List (Except (Exc AppError) Part)) : Prop where
  language : ∀ text, fields.language = some text → text ∈ languages
  code : ∀ text, fields.code = some text → 0 ∉ text
  hasLanguage : fields.language ≠ none ∨ ∃ part, .ok part ∈ body ∧ part.IsLanguage
  hasCode : fields.code ≠ none ∨ ∃ part, .ok part ∈ body ∧ part.IsCode limits

section Fields
variable {limits : Limits} {fields : Fields} {body : List (Except (Exc AppError) Part)}
  {part : Part} {w : World}

theorem ends_readLoop (hi : ∀ n, w.env.interrupt n = false) (maxSize : ℕ) (written : Bytes)
    (reads : List (Except (Exc AppError) Bytes)) :
    (readLoop maxSize written reads).Ends w fun r _ =>
      r = (reception maxSize written.length reads).map fun _ => written ++ bodyOf reads := by
  induction reads generalizing written w with
  | nil =>
    change (.ok written : Except _ _) = .ok (written ++ [])
    rw [List.append_nil]
  | cons read reads ih =>
    refine Program.Ends.bind (R := fun r v => r = .ok () ∧ v.env = w.env) ?_ ?_ fun e v h => by
      cases h.1
    · refine ⟨?_,rfl⟩
      change (if w.env.interrupt w.calls then _ else _) = _
      rw [hi]
      rfl
    rintro _ v ⟨-,hv⟩
    cases read with
    | error e => rfl
    | ok chunk =>
      cases chunk with
      | nil =>
        change (.ok written : Except _ _) = .ok (written ++ [])
        rw [List.append_nil]
      | cons byte chunk =>
        have hbody : bodyOf (.ok (byte :: chunk) :: reads) = byte :: chunk ++ bodyOf reads := rfl
        change (if maxSize < written.length + (byte :: chunk).length then _ else _ : Api Bytes).Ends
          v fun r _ => r = (if maxSize < written.length + (byte :: chunk).length then _ else _ :
            Except (Exc AppError) ℕ).map _
        split_ifs with hlarge
        · rfl
        · rw [hbody,← List.append_assoc,← List.length_append]
          exact ih (hv ▸ hi) (written ++ byte :: chunk)

theorem ends_readTextPart (hi : ∀ n, w.env.interrupt n = false) {name text : Str} {maxSize : ℕ}
    (h : part.Reads name maxSize text) :
    (readTextPart part maxSize).Ends w fun r _ => r = .ok text := by
  obtain ⟨_,⟨n,hn⟩,htext⟩ := h
  refine Program.Ends.bind (R := fun r _ => r = .ok part.content.body) ?_ ?_ fun e v hr => by
    cases hr
  · refine (ends_readLoop hi maxSize [] (prepareReader part.content)).mono fun r v hr => ?_
    have hrec : reception maxSize ([] : Bytes).length (prepareReader part.content) = .ok n := hn
    rw [hr,hrec]
    rfl
  · rintro _ v ⟨⟩
    rw [htext]
    rfl

theorem Part.IsLanguage.attachment (h : part.IsLanguage) : part.attachment = none := by
  obtain ⟨text,⟨hname,_⟩,_⟩ := h
  rw [Part.attachment,hname,if_neg (by decide)]

theorem Part.IsCode.attachment (h : part.IsCode limits) : part.attachment = none := by
  obtain ⟨text,⟨hname,_⟩,_⟩ := h
  rw [Part.attachment,hname,if_neg (by decide)]

theorem attachment_ofFile (file : Str × Content) : (Part.ofFile file).attachment = some file := rfl

theorem Fields.Awaits.file {file : Str × Content}
    (h : fields.Awaits limits (.ok (Part.ofFile file) :: body)) (staged : List (Str × Str)) :
    Fields.Awaits limits {fields with staged := staged} body := by
  refine ⟨h.language,h.code,h.hasLanguage.imp_right ?_,h.hasCode.imp_right ?_⟩
  · rintro ⟨part,hpart,hlanguage⟩
    rcases List.mem_cons.mp hpart with heq | hmem
    · cases heq
      cases hlanguage.attachment
    · exact ⟨part,hmem,hlanguage⟩
  · rintro ⟨part,hpart,hcode⟩
    rcases List.mem_cons.mp hpart with heq | hmem
    · cases heq
      cases hcode.attachment
    · exact ⟨part,hmem,hcode⟩

theorem Part.IsLanguage.not_isCode (h : part.IsLanguage) : ¬part.IsCode limits := by
  obtain ⟨_,⟨hname,_⟩,_⟩ := h
  rintro ⟨_,⟨hname',_⟩,_⟩
  rw [hname] at hname'
  exact absurd hname' (by decide)

/-- A valid text field is read. -/
theorem ends_readField (hi : ∀ n, w.env.interrupt n = false)
    (hpart : part.IsLanguage ∨ part.IsCode limits)
    (h : fields.Awaits limits (.ok part :: body)) :
    (readPart limits rootDirectory fields part).Ends w fun r _ =>
      ∃ fields', r = .ok (.ok fields') ∧ fields'.Awaits limits body := by
  unfold readPart
  rcases hpart with hlanguage | hcode
  · obtain ⟨text,hreads,htext⟩ := hlanguage
    have hread : (readLanguage part).Ends w fun r _ => r = .ok text :=
      Program.Ends.handle (ends_readTextPart hi hreads) (fun _ _ hr => hr) fun e v hr => by cases hr
    rw [if_pos hreads.1]
    refine Program.Ends.bind (R := fun r _ => r = .ok text) ?_ ?_ fun e v hr => by cases hr
    · exact Program.ends_mapError.mpr (hread.mono fun r v hr => congrArg (Except.mapError _) hr)
    rintro _ v ⟨⟩
    refine ⟨_,rfl,?_,h.code,.inl (by simp),h.hasCode.imp_right ?_⟩
    · rintro _ ⟨⟩
      exact htext
    · rintro ⟨part',hpart,hcode⟩
      rcases List.mem_cons.mp hpart with heq | hmem
      · cases heq
        exact absurd hcode (Part.IsLanguage.not_isCode ⟨text,hreads,htext⟩)
      · exact ⟨part',hmem,hcode⟩
  · obtain ⟨text,hreads,htext⟩ := hcode
    rw [hreads.1,if_neg (by decide),if_pos rfl]
    refine Program.Ends.bind (R := fun r _ => r = .ok text) ?_ ?_ fun e v hr => by cases hr
    · exact Program.ends_mapError.mpr ((ends_readTextPart hi hreads).mono fun r v hr =>
        congrArg (Except.mapError _) hr)
    rintro _ v ⟨⟩
    refine ⟨_,rfl,h.language,?_,h.hasLanguage.imp_right ?_,.inl (by simp)⟩
    · rintro _ ⟨⟩
      exact htext
    · rintro ⟨part',hpart,hlanguage⟩
      rcases List.mem_cons.mp hpart with heq | hmem
      · cases heq
        exact absurd ⟨text,hreads,htext⟩ hlanguage.not_isCode
      · exact ⟨part',hmem,hlanguage⟩

end Fields

section Reading
variable {limits : Limits} {fields : Fields} {body parts : List (Except (Exc AppError) Part)}
  {part : Part} {file : Str × Content} {last : ℕ} {us : List Upload} {places : List Loc}
  {w v : World}

theorem readLoop_later (maxSize : ℕ) (content : Bytes)
    (reads : List (Except (Exc AppError) Bytes)) :
    (readLoop maxSize content reads).Within World.Later := by
  induction reads generalizing content with
  | nil => exact .pure _
  | cons read reads ih =>
    refine Os.checkpoint_later.bind fun _ => ?_
    split
    · exact .raise _
    · exact .pure _
    · split_ifs
      · exact .raise _
      · exact ih _

theorem readTextPart_later (part : Part) (maxSize : ℕ) :
    (readTextPart part maxSize).Within World.Later := by
  refine (readLoop_later _ _ _).bind fun content => ?_
  split
  · exact .pure _
  · exact .raise _
  · exact .raise _

theorem during_later {α : Type} {phase : Phase} {x : Api α} (h : x.Within World.Later) :
    (during phase x).Within World.Later := h

theorem readPart_later (fields : Fields) (part : Part) :
    (readPart limits rootDirectory fields part).Within World.Later := by
  unfold readPart
  split_ifs
  · refine .bind (during_later ((readTextPart_later part 64).handle fun e => ?_)) fun _ => .pure _
    split <;> exact .raise _
  · exact .bind (during_later (readTextPart_later part _)) fun _ => .pure _
  · split
    · exact .pure _
    · exact .bind (during_later (stageFile_later _ _ _)) fun _ => .pure _
  · exact .pure _

theorem readParts_later (fields : Fields) (body : List (Except (Exc AppError) Part)) :
    (readParts limits rootDirectory fields body).Within World.Later := by
  induction body generalizing fields with
  | nil => exact .pure _
  | cons read body ih =>
    cases read with
    | error e => exact .pure _
    | ok part =>
      refine .bind (fun w => readPart_later fields part w) fun outcome => ?_
      rcases outcome with fault | response | fields'
      · exact .pure _
      · exact .pure _
      · exact ih fields'

/-- The next turn makes some of the calls of the loop. -/
theorem readPart_calls (fields : Fields) (part : Part) (body : List (Except (Exc AppError) Part))
    (w : World) : (readPart limits rootDirectory fields part w).2.calls ≤
      (readParts limits rootDirectory fields (.ok part :: body) w).2.calls := by
  have hlater : (readPart limits rootDirectory fields part w).2.Later
      (readParts limits rootDirectory fields (.ok part :: body) w).2 := by
    refine World.later_bind (x := (readPart limits rootDirectory fields part).attempt)
      (fun outcome => ?_) w
    rcases outcome with fault | response | fields'
    · exact .pure _
    · exact .pure _
    · exact readParts_later fields' body
  exact hlater.calls

theorem readParts_faults (body : List (Except (Exc AppError) Part)) {fault : Fault}
    (hrun : readPart limits rootDirectory fields part w = (.error fault,v)) :
    readParts limits rootDirectory fields (.ok part :: body) w =
      (.ok (fields,.raises fault),v) := by
  have hattempt : (readPart limits rootDirectory fields part).attempt w =
      (.ok (.error fault),v) := by
    unfold Program.attempt
    rw [hrun]
  exact Program.bind_run hattempt

/-- How the block ends a request whose parts are read no further is the status of the answer. -/
def Answers (left : Left) (status : ℕ) : Prop :=
  ∃ fault, malformed left = .raises fault ∧ statusOf (settled (.error fault)) = some status

/-- A part that attaches a file is staged or refused. -/
theorem ends_attach (h : Site last (us.map Upload.loc) (fun _ => none) us w)
    (henv : Serene w.env last)
    (hapart : FileRead.Apart w.env (.ok file))
    (hgood : Answerable limits.maxFileSize places (.ok file))
    (hlast : (readPart limits rootDirectory fields (Part.ofFile file) w).2.calls ≤ last) :
    (readPart limits rootDirectory fields (Part.ofFile file)).Ends w fun r v => v.env = w.env ∧
      ((refusedWith limits.maxFileSize (.ok file) = none ∧ ∃ u, Carries file u ∧
          r = .ok (.ok {fields with staged := fields.staged ++ [u.staged]}) ∧
          Site last ((us ++ [u]).map Upload.loc) (fun _ => none) (us ++ [u]) v) ∨
        ∃ fault status, r = .error fault ∧ Answers (.raises fault) status ∧
          refusedWith limits.maxFileSize (.ok file) = some status) := by
  rw [readPart_attachment limits fields (attachment_ofFile file)] at hlast ⊢
  have hcalls : (stageFile rootDirectory limits.maxFileSize file.1 file.2 w).2.calls ≤ last :=
    (World.later_bind (x := during .staging _) (fun _ => .pure _) w).calls.trans hlast
  refine Program.ends_bind.mpr (Program.ends_mapError.mpr ?_)
  cases hq : normalizeSubPath file.1 with
  | error e =>
    have hstage : stageFile rootDirectory limits.maxFileSize file.1 file.2 w =
        (.error (.app (.validationError e)),w) := by
      unfold stageFile Session.normalize
      rw [hq]
      rfl
    rw [Program.ends_of_run hstage]
    refine ⟨rfl,.inr ⟨_,400,rfl,⟨_,rfl,rfl⟩,?_⟩⟩
    rw [refusedWith,hq]
  | ok p =>
    obtain ⟨⟨dir,hdir,_⟩,hbody⟩ := hgood p hq
    have hway : Way (fun _ => none) p dir := ⟨hdir,fun _ _ => rfl⟩
    refine (h.stage henv hq (hapart file p rfl hq) hcalls).mono ?_
    rintro r v ⟨hv,hr⟩
    cases r with
    | ok st =>
      obtain ⟨u,loc,rfl,hcarries,hway,hfits,hsite⟩ := hr
      refine ⟨hv,.inl ⟨refusedWith_fits hq hfits,u,hcarries,rfl,?_⟩⟩
      have hwait := hsite.holds.waiting u (by simp)
      have hpath : u.path = p := by
        cases hq.symm.trans hcarries.1
        rfl
      have hloc : u.loc = loc := by
        rw [hpath] at hwait
        exact Option.some.inj (hwait.place.symm.trans hway.1)
      rw [List.map_append]
      change Site last (us.map Upload.loc ++ [u.loc]) _ _ v
      rw [hloc]
      exact hsite
    | error exc =>
      refine ⟨hv,.inr ?_⟩
      cases hr with
      | blocked h => exact absurd hway (h dir)
      | @unread _ exc _ he =>
        rw [he] at hbody
        have hrefused := refusedWith_unread hq he
        rcases hbody with rfl | rfl
        · exact ⟨_,413,rfl,⟨_,rfl,rfl⟩,hrefused⟩
        · exact ⟨_,400,rfl,⟨_,rfl,rfl⟩,hrefused⟩

/-- The loop stages every attachment, or it ends with the first part that is refused. -/
theorem ends_readParts {reads : List FileRead} (hattach : Attaches limits reads body)
    (h : Site last (us.map Upload.loc) (fun _ => none) us w) (henv : Serene w.env last)
    (hapart : ∀ read ∈ reads, read.Apart w.env) (hsound : Sound limits.maxFileSize places reads)
    (hst : fields.staged = us.map Upload.staged) (hawaits : fields.Awaits limits body)
    (hlast : (readParts limits rootDirectory fields body w).2.calls ≤ last) :
    (readParts limits rootDirectory fields body).Ends w fun r v => v.env = w.env ∧
      ∃ fields' left, r = .ok (fields',left) ∧
        ((reads.findSome? (refusedWith limits.maxFileSize) = none ∧ left = .fallsThrough ∧
          fields'.Awaits limits [] ∧ ∃ files new, reads = files.map .ok ∧
            List.Forall₂ Carries files new ∧ fields'.staged = (us ++ new).map Upload.staged ∧
            Site last ((us ++ new).map Upload.loc) (fun _ => none) (us ++ new) v) ∨
        ∃ status, reads.findSome? (refusedWith limits.maxFileSize) = some status ∧
          Answers left status) := by
  induction hattach generalizing fields us w places with
  | nil =>
    refine ⟨rfl,fields,_,rfl,.inl ⟨rfl,rfl,hawaits,[],[],rfl,.nil,?_,?_⟩⟩
    · rw [List.append_nil,hst]
    · rw [List.append_nil]
      exact h
  | @field part reads body hpart hattach ih =>
    have hnone : part.attachment = none :=
      hpart.elim Part.IsLanguage.attachment Part.IsCode.attachment
    obtain ⟨hquiet,hsame⟩ := readPart_other limits fields (w := w) hnone
    have hlater : w.Later (readPart limits rootDirectory fields part w).2 :=
      readPart_later fields part w
    have hread := ends_readField henv.steady.interrupt hpart hawaits
    rcases hrun : readPart limits rootDirectory fields part w with ⟨r,v⟩
    rw [hrun] at hquiet hsame hlater
    obtain ⟨fields',rfl,hawaits'⟩ := (Program.ends_of_run hrun).mp hread
    have hloop := readParts_continues body hrun
    rw [hloop] at hlast
    unfold Program.Ends
    rw [hloop,← hquiet.env]
    exact ih (h.quiet hquiet hlater) (hquiet.env ▸ henv) (hquiet.env ▸ hapart) hsound
      ((hsame fields' rfl).trans hst) hawaits' hlast
  | @file read reads body hattach ih =>
    obtain ⟨hfirst,hrest⟩ := List.forall_mem_cons.mp hapart
    obtain ⟨hgood,hsound⟩ := hsound
    cases read with
    | error exc =>
      cases hgood
      exact ⟨rfl,fields,_,rfl,.inr ⟨400,rfl,_,rfl,rfl⟩⟩
    | ok file =>
      have hturn := ends_attach h henv hfirst hgood
        ((readPart_calls fields (Part.ofFile file) body w).trans hlast)
      rcases hrun : readPart limits rootDirectory fields (Part.ofFile file) w with ⟨r,v⟩
      obtain ⟨hv,⟨hnone,u,hcarries,rfl,hsite⟩ | ⟨fault,status,rfl,hanswers,hstatus⟩⟩ :=
        (Program.ends_of_run hrun).mp hturn
      · have hloop := readParts_continues body hrun
        change (readParts limits rootDirectory fields (.ok (Part.ofFile file) :: body) w).2.calls ≤
          last at hlast
        rw [hloop] at hlast
        have hstaged : fields.staged ++ [u.staged] = (us ++ [u]).map Upload.staged := by
          rw [List.map_append,← hst]
          rfl
        obtain ⟨hv',fields',left,hr,hends⟩ := ih hsite (hv ▸ henv) (hv ▸ hrest) (hsound hnone)
          hstaged (hawaits.file _) hlast
        refine (Program.ends_of_run (hloop.trans (Prod.ext hr rfl))).mpr ⟨hv'.trans hv,fields',left,
          rfl,?_⟩
        rw [List.findSome?_cons,hnone]
        refine hends.imp_left ?_
        rintro ⟨hno,hleft,hawaits',files,new,rfl,hnew,hst',hsite'⟩
        rw [List.append_assoc] at hst' hsite'
        exact ⟨hno,hleft,hawaits',file :: files,u :: new,rfl,.cons hcarries hnew,hst',hsite'⟩
      · refine (Program.ends_of_run (readParts_faults body hrun)).mpr ⟨hv,fields,_,rfl,.inr
          ⟨status,?_,hanswers⟩⟩
        rw [List.findSome?_cons,hstatus]

end Reading

section Committing
variable {limits : Limits} {fields : Fields} {body : List (Except (Exc AppError) Part)} {last : ℕ}
  {ds : List Loc} {entries es : List (Loc × Node)} {us : List Upload} {w v u : World}
  {files : List (Str × Content)} {left : Left} {fault : Fault}

/-- Uploads that are not for directories are all committed. -/
theorem ends_commitAll (h : Site last ds (written entries fun _ => none) us w)
    (henv : Serene w.env last)
    (hgood : ∀ u ∈ us, ∃ k, place (split u.path) = some k ∧ k ∉ made ds) :
    (commitAll rootDirectory (us.map Upload.staged)).Ends w fun r v => r = .ok ([],.fallsThrough) ∧
      v.env = w.env ∧ ∃ es, List.Forall₂ Revealed us es ∧
        Site last ds (written (entries ++ es) fun _ => none) [] v := by
  induction us generalizing entries w with
  | nil =>
    refine ⟨rfl,rfl,[],.nil,?_⟩
    rw [List.append_nil]
    exact h
  | cons u us ih =>
    obtain ⟨⟨k,hk,hnot⟩,hrest⟩ := List.forall_mem_cons.mp hgood
    have hcommit := h.commit henv
    rcases hrun : commitStagedFile rootDirectory u.path u.name w with ⟨r,v⟩
    obtain ⟨hv,hr⟩ := (Program.ends_of_run hrun).mp hcommit
    have hattempt : (during .committing (commitStagedFile rootDirectory u.path u.name)).attempt w =
        (.ok (r.mapError (Fault.mk .committing)),v) := by
      unfold Program.attempt during Program.mapError
      rw [hrun]
    cases r with
    | error e =>
      rcases hr with ⟨hname,_⟩ | ⟨_,k',hk',hmade⟩
      · obtain ⟨_,c,_,hc,_⟩ := place_split hk
        cases hc.symm.trans hname
      · cases hk.symm.trans hk'
        exact absurd hmade hnot
    | ok =>
      obtain ⟨k',hk',_,hsite⟩ := hr
      rw [← written_concat entries (k',u.node)] at hsite
      have hloop := commitAll_commit (us.map Upload.staged) hattempt
      obtain ⟨hdone,henv',es,hes,hsite'⟩ := ih hsite (hv ▸ henv) hrest
      refine (Program.ends_of_run (hloop.trans (Prod.ext hdone rfl))).mpr ⟨rfl,henv'.trans hv,
        (k',u.node) :: es,.cons ⟨hk',rfl⟩ hes,?_⟩
      rw [List.append_cons]
      exact hsite'

theorem Fields.Awaits.valid (h : fields.Awaits limits []) :
    ∃ language code, validateLanguage fields.language = .ok language ∧
      validateCode fields.code = .ok code := by
  obtain ⟨language,hlanguage⟩ := Option.ne_none_iff_exists'.mp
    (h.hasLanguage.resolve_right (by simp))
  obtain ⟨code,hcode⟩ := Option.ne_none_iff_exists'.mp (h.hasCode.resolve_right (by simp))
  refine ⟨language,code,?_,?_⟩
  · rw [hlanguage,validateLanguage,if_neg (not_not.mpr (h.language _ hlanguage))]
  · rw [hcode,validateCode,if_neg (h.code _ hcode)]

theorem validateAndCommit_awaited (h : fields.Awaits limits []) :
    validateAndCommit rootDirectory fields (malformed .fallsThrough) =
      commitAll rootDirectory fields.staged := by
  obtain ⟨language,code,hlanguage,hcode⟩ := h.valid
  simp only [malformed,validateAndCommit,hlanguage,hcode]

/-- A block whose loop and commits go through. -/
theorem stagingBlock_ok (hawaits : fields.Awaits limits [])
    (hread : readParts limits rootDirectory ⟨none,none,[]⟩ body w = (.ok (fields,.fallsThrough),v))
    (hcommit : commitAll rootDirectory fields.staged v = (.ok ([],.fallsThrough),u)) :
    stagingBlock limits rootDirectory body w = (.ok (.ok fields),u) := by
  refine (Program.bind_run hread).trans ?_
  dsimp only
  rw [validateAndCommit_awaited hawaits]
  exact Program.bind_run hcommit

/-- A block whose loop is left by an exception ends with that. -/
theorem stagingBlock_error (hun : ∀ file ∈ attachments body, ∀ p,
      normalizeSubPath file.1 = .ok p → Unguessed w.env p)
    (hread : readParts limits rootDirectory ⟨none,none,[]⟩ body w = (.ok (fields,left),v))
    (hleft : malformed left = .raises fault) :
    (stagingBlock limits rootDirectory body w).1 = .error fault := by
  obtain ⟨c,hr,hof⟩ := (Program.Ends.run (stagingBlock_ends limits hun)).2
  have hreads := hof.reads
  rw [hread] at hreads
  obtain ⟨hpair,_⟩ := Prod.mk.inj hreads
  obtain ⟨hfields,hleft'⟩ := Prod.mk.inj (Except.ok.inj hpair)
  have hcommits := hof.commits
  rw [← hleft',hleft] at hcommits
  obtain ⟨hpair,_⟩ := Prod.mk.inj hcommits
  obtain ⟨_,hending⟩ := Prod.mk.inj (Except.ok.inj hpair)
  rw [hr,← hending]
  rfl

end Committing

section Agreeing
variable {limits : Limits} {sessionId : Str} {creating executing host : Host}
  {reads : List FileRead} {body : List (Except (Exc AppError) Part)} {w w' u v : World}
  {fields : Fields}  {files : List (Str × Content)} {es es' : List (Loc × Node)} {last last' : ℕ}

theorem Attaches.mem (h : Attaches limits reads body) :
    ∀ file ∈ attachments body, .ok file ∈ reads := by
  induction h with
  | nil => simp [attachments]
  | @field part reads body hpart h ih =>
    rw [attachments,hpart.elim Part.IsLanguage.attachment Part.IsCode.attachment]
    exact ih
  | @file read reads body h ih =>
    cases read with
    | error exc =>
      intro file hfile
      cases hfile
    | ok file =>
      change ∀ file' ∈ file :: attachments body, _
      refine List.forall_mem_cons.mpr ⟨by simp,fun file' hmem => ?_⟩
      exact List.mem_cons_of_mem _ (ih file' hmem)

/-- The walk through the session before the run. -/
theorem ends_snapshot (hi : ∀ n, w.env.interrupt n = false) :
    ∃ before v, during .snapshot (walkSession limits) w = (.ok before,v) ∧ v.root = w.root := by
  have hcheckpoint (u : World) (hu : u.env = w.env) :
      (Os.checkpoint u : Except (Exc AppError) Unit × World) = (.ok (),u.tick) := by
    unfold Os.checkpoint
    rw [hu,hi]
    rfl
  have hwalk : walkSession limits w =
      (.ok (.ofItems (iterSessionFiles limits.prefixLength w.root)),w.tick.tick) := by
    refine (Program.bind_run (hcheckpoint w rfl)).trans ?_
    exact Program.bind_run (hcheckpoint w.tick rfl)
  refine ⟨.ofItems (iterSessionFiles limits.prefixLength w.root),w.tick.tick,?_,rfl⟩
  unfold during Program.mapError
  rw [hwalk]
  rfl

theorem locked_willing (h : host.Willing) (w : World) :
    (during .locking (locked host) w).1 = .ok () := by
  unfold during locked Program.mapError
  rw [h.registered,h.lock,h.current]
  rfl

theorem starts_of_passed (h : host.Willing) (hi : ∀ n, u.env.interrupt n = false)
    (hrun : stagingBlock limits rootDirectory body w = (.ok (.ok fields),u)) :
    ∃ v, Starts limits rootDirectory host ⟨true,false,body⟩ w v ∧ v.root = u.root := by
  obtain ⟨before,v,hwalk,hroot⟩ : ∃ before v,
      during .snapshot (walkSession limits) u = (.ok before,v) ∧ v.root = u.root := ends_snapshot hi
  exact ⟨v,(starts_passed rfl ⟨locked_willing h w,fields,hrun⟩).mpr ⟨h.slot,before,hwalk⟩,hroot⟩

theorem refused_of_error (h : host.Willing) {fault : Fault}
    (hrun : (stagingBlock limits rootDirectory body w).1 = .error fault) :
    (handleExecute limits rootDirectory host ⟨true,false,body⟩ w).1 = settled (.error fault) ∧
      ∀ v, ¬Starts limits rootDirectory host ⟨true,false,body⟩ w v := by
  have hlock := locked_willing h w
  rcases hblock : stagingBlock limits rootDirectory body w with ⟨r,u⟩
  rw [hblock] at hrun
  subst hrun
  constructor
  · rw [handleExecute_named limits host _ rfl rfl,tryBlock_locked rfl hlock]
    exact congrArg (fun r => settled r.1) (Program.bind_run_error hblock)
  · rintro v ⟨x,before,hx,huntil⟩
    cases hx
    have hstop : untilStart limits rootDirectory host ⟨true,false,body⟩ w = (.error fault,u) :=
      (Program.bind_run (Prod.ext hlock (locked_state host w))).trans
        (Program.bind_run_error hblock)
    cases hstop.symm.trans huntil

/-- No file is where a directory is. -/
theorem Seeded.notMem_made (h : Seeded last es v) {e : Loc × Node} (he : e ∈ es) :
    e.1 ∉ made (es.map fun e => e.1.dropLast) := by
  intro hmade
  rw [← h.dirs] at hmade
  obtain ⟨a,ns,hdir⟩ := hmade
  have hnone := Node.leaf_of_dir hdir
  rw [h.holds.pending.eq_files] at hnone
  exact (written_eq_none hnone).2 e he rfl

/-- Uploads of the files that were written are for the same places. -/
theorem carries_placed {us : List Upload} (hcarries : List.Forall₂ Carries files us)
    (hplaced : List.Forall₂ Placed files es)
    (hwait : ∀ u ∈ us, Waiting u.path u.name u.loc u.entry u.node w.root) :
    us.map Upload.loc = es.map (fun e => e.1.dropLast) ∧
      ∀ u ∈ us, ∃ e ∈ es, place (split u.path) = some e.1 := by
  induction hcarries generalizing es with
  | nil =>
    cases hplaced
    simp
  | @cons file u files us hcarries _ ih =>
    cases hplaced with
    | @cons _ e _ es hplaced hrest =>
      obtain ⟨hfirst,hwait⟩ := List.forall_mem_cons.mp hwait
      obtain ⟨hlocs,hplaces⟩ := ih hrest hwait
      obtain ⟨p,b,hq,hloc,_⟩ := hplaced
      cases hq.symm.trans hcarries.1
      obtain ⟨q,c,hdir,_,heq⟩ := place_split hloc
      have hsame : u.loc = e.1.dropLast := by
        rw [heq,List.dropLast_concat]
        exact Option.some.inj (hfirst.place.symm.trans hdir)
      refine ⟨by rw [List.map_cons,List.map_cons,hsame,hlocs],List.forall_mem_cons.mpr
        ⟨⟨e,by simp,hloc⟩,fun x hx => ?_⟩⟩
      obtain ⟨e',he',hx⟩ := hplaces x hx
      exact ⟨e',by simp [he'],hx⟩

/-- Sessions in which the same files were written are the same trees. -/
theorem sameTree_of_placed (h : Seeded last es v)
    (h' : Site last' (es.map fun e => e.1.dropLast) (written es' fun _ => none) [] u)
    (hplaced : List.Forall₂ Placed files es) (hplaced' : List.Forall₂ Placed files es') :
    SameTree v.root u.root := by
  refine ⟨h.dirs.trans h'.dirs.symm,fun loc => ?_⟩
  unfold dataAt
  rw [h.holds.pending.eq_files,h'.holds.pending.eq_files,data_written hplaced,data_written hplaced']

theorem refusedWith_client {maxFileSize : ℕ} {read : FileRead} {status : ℕ}
    (h : refusedWith maxFileSize read = some status) : status = 400 ∨ status = 413 := by
  unfold refusedWith at h
  split at h
  · cases h
    exact .inl rfl
  · split at h
    · cases h
      exact .inl rfl
    · split at h <;> cases h
      · exact .inr rfl
      · exact .inl rfl

/-- Sound parts are all accepted with a request to execute code, or the first that is refused
decides. -/
theorem attached_of_sound (hreq : Requests limits reads body) (hexecuting : executing.Willing)
    (hnew : NewSession reads w'
      (readParts limits rootDirectory ⟨none,none,[]⟩ body w').2)
    (hsound : Sound limits.maxFileSize [] reads) :
    (reads.findSome? (refusedWith limits.maxFileSize) = none ∧ ∀ files es last v,
        reads = files.map .ok → List.Forall₂ Placed files es → Seeded last es v →
          ∃ v', Starts limits rootDirectory executing ⟨true,false,body⟩ w' v' ∧
            SameTree v.root v'.root) ∨
      ∃ status, reads.findSome? (refusedWith limits.maxFileSize) = some status ∧
        statusOf (handleExecute limits rootDirectory executing ⟨true,false,body⟩ w').1 =
          some status ∧
        ∀ v, ¬Starts limits rootDirectory executing ⟨true,false,body⟩ w' v := by
  obtain ⟨a,hroot,hmode⟩ := hnew.empty
  have hawaits : Fields.Awaits limits ⟨none,none,[]⟩ body :=
    ⟨by simp,by simp,.inr hreq.language,.inr hreq.code⟩
  have hempty : Site (readParts limits rootDirectory ⟨none,none,[]⟩ body w').2.calls
      (([] : List Upload).map Upload.loc) (fun _ => none) [] w' := site_empty hroot hmode
  have hends := ends_readParts hreq.attaches hempty hnew.serene
    hnew.apart hsound rfl hawaits le_rfl
  rcases hread : readParts limits rootDirectory ⟨none,none,[]⟩ body w' with ⟨r,u⟩
  obtain ⟨hu,fields,left,rfl,hends⟩ := (Program.ends_of_run hread).mp hends
  rcases hends with ⟨hnone,rfl,hawaits',files,new,hfiles,hcarries,hst,hsite⟩ |
    ⟨status,hstatus,fault,hleft,hanswer⟩
  · refine .inl ⟨hnone,fun files' es last v hfiles' hplaced hseeded => ?_⟩
    cases List.map_injective_iff.mpr (fun _ _ => Except.ok.inj) (hfiles.symm.trans hfiles')
    obtain ⟨hlocs,hplaces⟩ := carries_placed hcarries hplaced hsite.holds.waiting
    rw [List.nil_append,hlocs] at hsite
    change Site _ _ (written [] fun _ => none) new u at hsite
    have hcommit := ends_commitAll hsite (hu ▸ hnew.serene) fun x hx => by
      obtain ⟨e,he,hxe⟩ := hplaces x hx
      exact ⟨e.1,hxe,hseeded.notMem_made he⟩
    obtain ⟨hdone,hx,es',hrevealed,hsite'⟩ := hcommit
    rw [List.nil_append] at hst
    have hrun := stagingBlock_ok hawaits' hread (by rw [hst]; exact Prod.ext hdone rfl)
    obtain ⟨v',hstarts,hroot'⟩ := starts_of_passed hexecuting
      ((hx.trans hu) ▸ hnew.serene.steady.interrupt) hrun
    refine ⟨v',hstarts,hroot' ▸ ?_⟩
    exact sameTree_of_placed hseeded hsite' hplaced (placed_of_revealed hcarries hrevealed)
  · have hun : ∀ file ∈ attachments body, ∀ p, normalizeSubPath file.1 = .ok p →
        Unguessed w'.env p := fun file hfile p hp =>
      (hnew.apart _ (hreq.attaches.mem file hfile) file p rfl hp).unguessed
    obtain ⟨hexecute,hnot⟩ := refused_of_error hexecuting (stagingBlock_error hun hread hleft)
    exact .inr ⟨status,hstatus,by rw [hexecute]; exact hanswer,hnot⟩

/-- On a host where nothing fails, both requests treat the parts alike exactly if they are sound. -/
theorem agrees_iff_sound (hreq : Requests limits reads body) (hparsed : ∀ read ∈ reads, Parsed read)
    (hcreating : creating.Willing) (hexecuting : executing.Willing)
    (hnew : NewSession reads w (handleCreateSession limits rootDirectory sessionId creating
      ⟨true,reads.map (Except.map Part.ofFile)⟩ w).2)
    (hnew' : NewSession reads w' (readParts limits rootDirectory ⟨none,none,[]⟩ body w').2) :
    Agrees limits sessionId creating executing reads body w w' ↔
      Sound limits.maxFileSize [] reads := by
  rcases hrun : handleCreateSession limits rootDirectory sessionId creating
    ⟨true,reads.map (Except.map Part.ofFile)⟩ w with ⟨r,v⟩
  rw [hrun] at hnew
  have hcreated := ends_createSession hcreating hparsed hrun hnew
  constructor
  · intro hagrees
    by_contra hunsound
    have hstatus : createStatus r = some 500 := by
      rcases hcreated with ⟨_,hsound,_⟩ | ⟨hsound,_⟩ | ⟨_,hstatus⟩
      · exact absurd hsound hunsound
      · exact absurd hsound hunsound
      · exact hstatus
    cases hagrees with
    | accepted seeded =>
      cases hrun.symm.trans seeded
      cases hstatus
    | refused client seeded =>
      rw [hrun,hstatus] at seeded
      cases seeded
      omega
  · intro hsound
    rcases hcreated with ⟨rfl,_,hnone,files,es,hfiles,hplaced,hseeded⟩ | ⟨_,status,hfind,hstatus⟩ |
      ⟨hunsound,_⟩
    · rcases attached_of_sound hreq hexecuting hnew' hsound with ⟨_,hall⟩ | ⟨status,hsome,_⟩
      · obtain ⟨v',hstarts,hsame⟩ := hall files es _ v hfiles hplaced hseeded
        exact .accepted hrun hstarts hsame
      · cases hnone.symm.trans hsome
    · rcases attached_of_sound hreq hexecuting hnew' hsound with
        ⟨hnone,_⟩ | ⟨status',hsome,hanswer,hnot⟩
      · cases hnone.symm.trans hfind
      · cases hfind.symm.trans hsome
        obtain ⟨read,_,hread⟩ := List.exists_of_findSome?_eq_some hfind
        exact .refused (refusedWith_client hread) (by rw [hrun]; exact hstatus) hanswer hnot
    · exact absurd hsound hunsound

end Agreeing

/-- A host where nothing fails. The first 4096 tokens differ in their first two digits. -/
def sereneHost : Environment where
  maxLinks := 40
  fault _ _ := none
  ino := id
  now _ := 0
  dirSize _ := 0
  random n := Fin.ofNat 64 n :: Fin.ofNat 64 (n / 64) :: List.replicate 9 0
  interrupt _ := false
  freed _ := false
  refuses _ := false

theorem serene_sereneHost {last : ℕ} (h : last ≤ 4096) : Serene sereneHost last := by
  refine ⟨fun _ _ => rfl,fun _ => rfl,fun n => ⟨rfl,?_⟩,fun n hn m hm heq => ?_⟩
  · intro d hd
    have hlast : (sereneHost.random n).getLast? = some 0 := rfl
    rw [hlast] at hd
    cases hd
    rfl
  · obtain ⟨hlow,hhigh⟩ := List.cons_eq_cons.mp heq
    have hlow := congrArg Fin.val hlow
    have hhigh := congrArg Fin.val (List.cons_eq_cons.mp hhigh).1
    simp only [Fin.ofNat,Set.mem_Iio] at hlow hhigh hn hm
    omega

def sereneSession : World := ⟨sereneHost,.dir ⟨0,dirMode,0,0,0⟩ [],[],3,0,[]⟩

/-- Everything is there. -/
def willingHost : Host := {withoutPodman with start := none}

theorem willing_willingHost : willingHost.Willing := ⟨rfl,rfl,rfl,rfl,rfl,rfl,rfl,rfl⟩

/-- A file of one byte. -/
def byteFile (name : String) : FileRead := .ok (lit name,.bytes [1])

/-- A request to print something, with files. -/
def printWith (reads : List FileRead) : List (Except (Exc AppError) Part) :=
  printOne.body ++ reads.map (Except.map Part.ofFile)

theorem requests_printWith (reads : List FileRead) :
    Requests exampleLimits reads (printWith reads) := by
  have hlanguage : (textPart "language" "python").IsLanguage :=
    ⟨lit "python",⟨rfl,⟨6,by decide +kernel⟩,by decide +kernel⟩,by decide +kernel⟩
  have hcode : (textPart "code" "print(1)").IsCode exampleLimits :=
    ⟨lit "print(1)",⟨rfl,⟨8,by decide +kernel⟩,by decide +kernel⟩,by decide⟩
  have hfiles : Attaches exampleLimits reads (reads.map (Except.map Part.ofFile)) := by
    induction reads with
    | nil => exact .nil
    | cons read reads ih => exact .file read ih
  refine ⟨.field (.inl hlanguage) (.field (.inr hcode) hfiles),⟨_,?_,hlanguage⟩,⟨_,?_,hcode⟩⟩
  · exact List.mem_cons_self
  · exact List.mem_cons_of_mem _ List.mem_cons_self

theorem parsed_byteFile (name : String) : Parsed (byteFile name) := by
  intro exc hexc
  cases List.mem_singleton.mp hexc

theorem newSession_byteFiles (names : List String) {v : World} (hcalls : v.calls ≤ 4096)
    (hshort : ∀ name ∈ names, ∀ p, normalizeSubPath (lit name) = .ok p →
      ∀ s ∈ split p, hasSurrogate s = false ∧ s.length < tempPrefix.length) :
    NewSession (names.map byteFile) sereneSession v := by
  refine ⟨serene_sereneHost hcalls,⟨_,rfl,rfl⟩,fun read hread file p hfile hp => ?_⟩
  obtain ⟨name,hname,rfl⟩ := List.mem_map.mp hread
  cases hfile
  exact clear_of_short (hshort name hname p hp)

/-- A path twice, under two spellings, and one in a directory beside it. -/
def nestedNames : List String := ["d/a","d//a","d/e/b"]

theorem sound_nestedNames : Sound exampleLimits.maxFileSize [] (nestedNames.map byteFile) := by
  have hanswerable (places : List Loc) (name : String) (q : Str) (dir loc : Loc)
      (hq : normalizeSubPath (lit name) = .ok q) (hdir : place (split q).dropLast = some dir)
      (hloc : place (split q) = some loc)
      (hclear : ∀ k ∈ places, ¬k <+: dir ∧ ¬loc <+: k.dropLast) :
      Answerable exampleLimits.maxFileSize places (byteFile name) := by
    intro p hp
    cases hq.symm.trans hp
    exact ⟨⟨dir,hdir,fun k hk => (hclear k hk).1⟩,loc,hloc,fun k hk => (hclear k hk).2⟩
  refine ⟨?_,fun _ => ⟨?_,fun _ => ⟨?_,fun _ => trivial⟩⟩⟩
  · exact hanswerable _ _ (lit "d/a") [⟨[0x64],by decide⟩] [⟨[0x64],by decide⟩,⟨[0x61],by decide⟩]
      (by decide +kernel) (by decide +kernel) (by decide +kernel) (by decide +kernel)
  · exact hanswerable _ _ (lit "d/a") [⟨[0x64],by decide⟩] [⟨[0x64],by decide⟩,⟨[0x61],by decide⟩]
      (by decide +kernel) (by decide +kernel) (by decide +kernel) (by decide +kernel)
  · exact hanswerable _ _ (lit "d/e/b") [⟨[0x64],by decide⟩,⟨[0x65],by decide⟩]
      [⟨[0x64],by decide⟩,⟨[0x65],by decide⟩,⟨[0x62],by decide⟩]
      (by decide +kernel) (by decide +kernel) (by decide +kernel) (by decide +kernel)

/-- These files are accepted by both requests. -/
theorem agrees_nestedFiles : Agrees exampleLimits (lit "id") willingHost willingHost
    (nestedNames.map byteFile) (printWith (nestedNames.map byteFile)) sereneSession sereneSession := by
  have hshort : ∀ name ∈ nestedNames, ∀ p, normalizeSubPath (lit name) = .ok p →
      ∀ s ∈ split p, hasSurrogate s = false ∧ s.length < tempPrefix.length := by
    intro name hname p hp
    simp only [nestedNames,List.mem_cons,List.not_mem_nil,or_false] at hname
    rcases hname with rfl | rfl | rfl <;> cases hp <;> decide
  refine (agrees_iff_sound (requests_printWith _) (fun read hread => ?_) willing_willingHost
    willing_willingHost (newSession_byteFiles nestedNames (by decide +kernel) hshort)
    (newSession_byteFiles nestedNames (by decide +kernel) hshort)).mpr sound_nestedNames
  obtain ⟨name,-,rfl⟩ := List.mem_map.mp hread
  exact parsed_byteFile name

/-- A file and then one below it: as a seed the second is answered with a 500. -/
theorem seeds_disagree : ¬∀ (limits : Limits) (sessionId : Str) (creating executing : Host)
    (reads : List FileRead) (body : List (Except (Exc AppError) Part)) (w w' : World),
    Requests limits reads body → (∀ read ∈ reads, Parsed read) → creating.Willing →
      executing.Willing → NewSession reads w (handleCreateSession limits rootDirectory sessionId
        creating ⟨true,reads.map (Except.map Part.ofFile)⟩ w).2 →
      NewSession reads w' (readParts limits rootDirectory ⟨none,none,[]⟩ body w').2 →
        Agrees limits sessionId creating executing reads body w w' := by
  intro h
  have hshort : ∀ name ∈ ["a","a/b"], ∀ p, normalizeSubPath (lit name) = .ok p →
      ∀ s ∈ split p, hasSurrogate s = false ∧ s.length < tempPrefix.length := by
    intro name hname p hp
    rcases List.mem_pair.mp hname with rfl | rfl <;> cases hp <;> decide
  have hagrees := h exampleLimits (lit "id") willingHost willingHost [byteFile "a",byteFile "a/b"]
    (printWith [byteFile "a",byteFile "a/b"]) sereneSession sereneSession (requests_printWith _)
    (List.forall_mem_cons.mpr ⟨parsed_byteFile "a",by simpa using parsed_byteFile "a/b"⟩)
    willing_willingHost willing_willingHost
    (newSession_byteFiles ["a","a/b"] (by decide +kernel) hshort)
    (newSession_byteFiles ["a","a/b"] (by decide +kernel) hshort)
  have hstatus : createStatus (handleCreateSession exampleLimits rootDirectory (lit "id")
      willingHost ⟨true,[byteFile "a",byteFile "a/b"].map (Except.map Part.ofFile)⟩ sereneSession).1 =
        some 500 := by decide +kernel
  cases hagrees with
  | accepted seeded =>
    rw [seeded] at hstatus
    cases hstatus
  | refused client seeded =>
    cases hstatus.symm.trans seeded
    omega

end CodeExecutorApi
