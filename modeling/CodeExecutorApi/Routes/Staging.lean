import CodeExecutorApi.Routes.Execute
import CodeExecutorApi.Sessions.Pending

/-! What the staging block of a request to execute code makes of the files of its session. -/
namespace CodeExecutorApi
open Python Posix Machine Session

/-- The file that a part attaches. -/
def Part.attachment (part : Part) : Option (Str × Content) :=
  if part.name = some (lit "attachments") then part.filename.map fun filename => (filename,part.content)
  else none

/-- The files that the parts of a body attach, up to where it cannot be read further. -/
def attachments : List (Except (Exc AppError) Part) → List (Str × Content)
  | .ok part :: parts => part.attachment.toList ++ attachments parts
  | _ => []

/-- While the parts are read, staging an attachment leaves its temporary file. -/
def Leaks (limits : Limits) : Fields → List (Except (Exc AppError) Part) → World → Prop
  | fields, .ok part :: parts, w =>
    (∃ file, part.attachment = some file ∧ StagingLeaks limits.maxFileSize file.1 file.2 w) ∨
      ∃ fields' v, readPart limits rootDirectory fields part w = (.ok (.ok fields'),v) ∧
        Leaks limits fields' parts v
  | _, _, _ => False

section Reading
variable {limits : Limits} {fields : Fields} {part : Part} {w : World}

theorem readLoop_quiet (maxSize : ℕ) (content : Bytes)
    (reads : List (Except (Exc AppError) Bytes)) :
    (readLoop maxSize content reads).Within World.Quiet := by
  induction reads generalizing content with
  | nil => exact .pure _
  | cons read reads ih =>
    refine Os.checkpoint_quiet.bind fun _ => ?_
    split
    · exact .raise _
    · exact .pure _
    · split_ifs
      · exact .raise _
      · exact ih _

theorem readTextPart_quiet (part : Part) (maxSize : ℕ) :
    (readTextPart part maxSize).Within World.Quiet := by
  refine (readLoop_quiet _ _ _).bind fun content => ?_
  split
  · exact .pure _
  · exact .raise _
  · exact .raise _

theorem readLanguage_quiet (part : Part) : (readLanguage part).Within World.Quiet := by
  refine (readTextPart_quiet part 64).handle fun e => ?_
  split <;> exact .raise _

variable (limits fields) in
/-- A part that attaches a file. -/
theorem readPart_attachment {file : Str × Content} (h : part.attachment = some file) :
    readPart limits rootDirectory fields part = (do
      let staged ← during .staging (stageFile rootDirectory limits.maxFileSize file.1 file.2)
      return .ok {fields with staged := fields.staged ++ [staged]}) := by
  unfold Part.attachment at h
  split_ifs at h with hname
  obtain ⟨filename,hfilename,rfl⟩ := Option.map_eq_some_iff.mp h
  have hlanguage : part.name ≠ some (lit "language") := by
    rw [hname]
    decide
  have hcode : part.name ≠ some (lit "code") := by
    rw [hname]
    decide
  unfold readPart
  rw [if_neg hlanguage,if_neg hcode,if_pos hname,hfilename]

variable (limits fields) in
/-- Any other part leaves the session as it is. -/
theorem readPart_other (h : part.attachment = none) :
    (readPart limits rootDirectory fields part).Ends w fun r v =>
      w.Quiet v ∧ ∀ fields', r = .ok (.ok fields') → fields'.staged = fields.staged := by
  unfold readPart
  split_ifs with hlanguage hcode hname
  · refine Program.Ends.bind (R := fun _ v => w.Quiet v) (readLanguage_quiet part w)
      (fun _ v hv => ⟨hv,fun fields' hf => ?_⟩) fun e v hv => ⟨hv,nofun⟩
    cases hf
    rfl
  · refine Program.Ends.bind (R := fun _ v => w.Quiet v) (readTextPart_quiet part _ w)
      (fun _ v hv => ⟨hv,fun fields' hf => ?_⟩) fun e v hv => ⟨hv,nofun⟩
    cases hf
    rfl
  · cases hfilename : part.filename with
    | none => exact ⟨.refl w,nofun⟩
    | some filename =>
      rw [Part.attachment,if_pos hname,hfilename] at h
      cases h
  · exact ⟨.refl w,nofun⟩

variable {parts : List (Except (Exc AppError) Part)} {v : World}

theorem readParts_continues (parts : List (Except (Exc AppError) Part)) {fields' : Fields}
    (hrun : readPart limits rootDirectory fields part w = (.ok (.ok fields'),v)) :
    readParts limits rootDirectory fields (.ok part :: parts) w =
      readParts limits rootDirectory fields' parts v := by
  have hattempt : (readPart limits rootDirectory fields part).attempt w = (.ok (.ok (.ok fields')),v) := by
    unfold Program.attempt
    rw [hrun]
  exact Program.bind_run hattempt

theorem readParts_stops (parts : List (Except (Exc AppError) Part))
    {r : Except Fault (Except ExecuteResponse Fields)}
    (hrun : readPart limits rootDirectory fields part w = (r,v)) (hr : ∀ fields', r ≠ .ok (.ok fields')) :
    ∃ left, left ≠ .fallsThrough ∧
      readParts limits rootDirectory fields (.ok part :: parts) w = (.ok (fields,left),v) := by
  have hattempt : (readPart limits rootDirectory fields part).attempt w = (.ok r,v) := by
    unfold Program.attempt
    rw [hrun]
  rcases r with fault | response | fields'
  · exact ⟨.raises fault,by simp,Program.bind_run hattempt⟩
  · exact ⟨.returns response,by simp,Program.bind_run hattempt⟩
  · exact absurd rfl (hr fields')

theorem leaks_cons (h : ∀ file, part.attachment = some file →
      ¬StagingLeaks limits.maxFileSize file.1 file.2 w) {fields' : Fields}
    (hrun : readPart limits rootDirectory fields part w = (.ok (.ok fields'),v)) :
    Leaks limits fields (.ok part :: parts) w ↔ Leaks limits fields' parts v := by
  constructor
  · rintro (⟨file,hfile,hleak⟩ | ⟨fields'',u,hrun',hleak⟩)
    · exact absurd hleak (h file hfile)
    · rw [hrun] at hrun'
      cases hrun'
      exact hleak
  · exact fun hleak => .inr ⟨fields',v,hrun,hleak⟩

theorem not_leaks_stopped (h : ∀ file, part.attachment = some file →
      ¬StagingLeaks limits.maxFileSize file.1 file.2 w)
    {r : Except Fault (Except ExecuteResponse Fields)}
    (hrun : readPart limits rootDirectory fields part w = (r,v)) (hr : ∀ fields', r ≠ .ok (.ok fields')) :
    ¬Leaks limits fields (.ok part :: parts) w := by
  rintro (⟨file,hfile,hleak⟩ | ⟨fields',u,hrun',_⟩)
  · exact h file hfile hleak
  · rw [hrun] at hrun'
    cases hrun'
    exact hr fields' rfl

end Reading

/-- The loop over the parts is left in `v`: `new` was staged, for a prefix of the attachments, and
besides the session holds `base`. -/
structure Gathered (limits : Limits) (fields : Fields) (body : List (Except (Exc AppError) Part))
    (files : Loc → Option Node) (us : List Upload) (w : World) (fields' : Fields) (left : Left)
    (base : Loc → Option Node) (new : List Upload) (v : World) : Prop where
  env : v.env = w.env
  staged : fields'.staged = (us ++ new).map Upload.staged
  carries : ∃ cs, cs <+: attachments body ∧ List.Forall₂ Carries cs new ∧
    (left = .fallsThrough → cs = attachments body)
  holds : Holds base (us ++ new) v
  clean : base = files ∧ ¬Leaks limits fields body w ∨ (¬Tidy w.env ∨ Leaks limits fields body w) ∧
    Littered w.env files base ∧ left ≠ .fallsThrough

/-- The loop over the parts gathers, however it ends. -/
def Gathers (limits : Limits) (fields : Fields) (body : List (Except (Exc AppError) Part))
    (files : Loc → Option Node) (us : List Upload) (w : World) : Prop :=
  (readParts limits rootDirectory fields body).Ends w fun r v => ∃ fields' left base new,
    r = .ok (fields',left) ∧ Gathered limits fields body files us w fields' left base new v

section Loop
variable {limits : Limits} {fields fields' : Fields} {body parts : List (Except (Exc AppError) Part)}
  {files base : Loc → Option Node} {us us' : List Upload} {w v : World} {part : Part} {left : Left}

/-- The loop ends before it has staged anything more. -/
theorem Gathered.stop (hst : fields.staged = us.map Upload.staged) (henv : v.env = w.env)
    (h : Holds base us v) (hleft : left = .fallsThrough → attachments body = [])
    (hclean : base = files ∧ ¬Leaks limits fields body w ∨
      (¬Tidy w.env ∨ Leaks limits fields body w) ∧ Littered w.env files base ∧ left ≠ .fallsThrough) :
    Gathered limits fields body files us w fields left base [] v where
  env := henv
  staged := by rw [List.append_nil,hst]
  carries := ⟨[],List.nil_prefix,.nil,fun hl => (hleft hl).symm⟩
  holds := by
    rw [List.append_nil]
    exact h
  clean := hclean

theorem Gathers.stop {r : Except Fault (Except ExecuteResponse Fields)}
    (hst : fields.staged = us.map Upload.staged)
    (hrun : readPart limits rootDirectory fields part w = (r,v)) (hr : ∀ fields', r ≠ .ok (.ok fields'))
    (henv : v.env = w.env) (h : Holds base us v)
    (hclean : base = files ∧ ¬Leaks limits fields (.ok part :: parts) w ∨
      (¬Tidy w.env ∨ Leaks limits fields (.ok part :: parts) w) ∧ Littered w.env files base) :
    Gathers limits fields (.ok part :: parts) files us w := by
  obtain ⟨left,hleft,hstops⟩ := readParts_stops parts hrun hr
  refine (Program.ends_of_run hstops).mpr ⟨fields,left,base,[],rfl,.stop hst henv h
    (fun hl => absurd hl hleft) (hclean.imp_right fun hlit => ⟨hlit.1,hlit.2,hleft⟩)⟩

/-- The loop goes on with what a part made of the uploads. -/
theorem Gathers.cons (us' : List Upload)
    (h : Gathers limits fields' parts files (us ++ us') v)
    (hrun : readPart limits rootDirectory fields part w = (.ok (.ok fields'),v))
    (henv : v.env = w.env) (hcarries : List.Forall₂ Carries part.attachment.toList us')
    (hnone : ∀ file, part.attachment = some file →
      ¬StagingLeaks limits.maxFileSize file.1 file.2 w) :
    Gathers limits fields (.ok part :: parts) files us w := by
  have hsame := readParts_continues parts hrun
  obtain ⟨fields'',left,base,new,hend,hg⟩ := h
  refine (Program.ends_of_run (hsame.trans (Prod.ext hend rfl))).mpr ⟨fields'',left,base,us' ++ new,rfl,hg.env.trans henv,?_,?_,?_,?_⟩
  · rw [← List.append_assoc,hg.staged]
  · obtain ⟨cs,hcs,hnew,hleft⟩ := hg.carries
    refine ⟨part.attachment.toList ++ cs,?_,List.rel_append hcarries hnew,fun hl => ?_⟩
    · exact (List.prefix_append_right_inj _).mpr hcs
    · rw [hleft hl]
      rfl
  · rw [← List.append_assoc]
    exact hg.holds
  · rw [leaks_cons hnone hrun,← henv]
    exact hg.clean

variable (limits fields) in
theorem readParts_gathers (h : Holds files us w) (hst : fields.staged = us.map Upload.staged)
    (hun : ∀ file ∈ attachments body, ∀ p, normalizeSubPath file.1 = .ok p → Unguessed w.env p) :
    Gathers limits fields body files us w := by
  induction body generalizing fields us w with
  | nil => exact ⟨fields,_,files,[],rfl,.stop hst rfl h (fun _ => rfl) (.inl ⟨rfl,fun h => h⟩)⟩
  | cons read parts ih =>
    cases read with
    | error e => exact ⟨fields,_,files,[],rfl,.stop hst rfl h (by simp) (.inl ⟨rfl,fun h => h⟩)⟩
    | ok part =>
      have hrest {v : World} (henv : v.env = w.env) : ∀ file ∈ attachments parts, ∀ p,
          normalizeSubPath file.1 = .ok p → Unguessed v.env p :=
        fun file hfile p hp => henv ▸ hun file (List.mem_append_right _ hfile) p hp
      cases hfile : part.attachment with
      | none =>
        have hnone : ∀ file, part.attachment = some file →
            ¬StagingLeaks limits.maxFileSize file.1 file.2 w := by simp [hfile]
        obtain ⟨hquiet,hsame⟩ := readPart_other limits fields (w := w) hfile
        rcases hrun : readPart limits rootDirectory fields part w with ⟨r,v⟩
        rw [hrun] at hquiet hsame
        have hv := h.quiet hquiet
        by_cases hr : ∃ fields', r = .ok (.ok fields')
        · obtain ⟨fields',rfl⟩ := hr
          refine Gathers.cons [] ?_ hrun hquiet.env (hfile ▸ .nil) hnone
          rw [List.append_nil]
          exact ih fields' hv ((hsame fields' rfl).trans hst) (hrest hquiet.env)
        · have hr := not_exists.mp hr
          exact .stop hst hrun hr hquiet.env hv (.inl ⟨rfl,not_leaks_stopped hnone hrun hr⟩)
      | some file =>
        have hpart := readPart_attachment limits fields hfile
        have hmem : file ∈ attachments (.ok part :: parts) := by simp [attachments,hfile]
        by_cases hleak : StagingLeaks limits.maxFileSize file.1 file.2 w
        · obtain ⟨e,v,base,hstage,henv,hlit,hbase⟩ := h.stage_leaks hleak
          have hrun : readPart limits rootDirectory fields part w = (.error ⟨.staging,e⟩,v) := by
            rw [hpart]
            refine Program.bind_run_error ?_
            unfold during Program.mapError
            rw [hstage]
            rfl
          exact .stop hst hrun nofun henv hbase (.inr ⟨.inr (.inl ⟨file,hfile,hleak⟩),hlit⟩)
        have hnone : ∀ file', part.attachment = some file' →
            ¬StagingLeaks limits.maxFileSize file'.1 file'.2 w := by
          intro file' hfile'
          cases hfile.symm.trans hfile'
          exact hleak
        obtain ⟨henv,hstage⟩ := h.stage limits.maxFileSize (hun file hmem)
        rcases hst' : stageFile rootDirectory limits.maxFileSize file.1 file.2 w with ⟨r,v⟩
        rw [hst'] at henv hstage
        cases r with
        | ok st =>
          obtain ⟨u,rfl,hcarries,hu⟩ := hstage
          have hrun : readPart limits rootDirectory fields part w =
              (.ok (.ok {fields with staged := fields.staged ++ [u.staged]}),v) := by
            rw [hpart]
            refine Program.bind_run (a := u.staged) ?_
            unfold during Program.mapError
            rw [hst']
            rfl
          refine Gathers.cons [u] (ih _ hu ?_ (hrest henv)) hrun henv ?_ hnone
          · rw [List.map_append,← hst]
            rfl
          · rw [hfile]
            exact .cons hcarries .nil
        | error e =>
          have hrun : readPart limits rootDirectory fields part w = (.error ⟨.staging,e⟩,v) := by
            rw [hpart]
            refine Program.bind_run_error ?_
            unfold during Program.mapError
            rw [hst']
            rfl
          rcases hstage with hv | ⟨hwhy,base,hlit,hbase⟩
          · exact .stop hst hrun nofun henv hv (.inl ⟨rfl,not_leaks_stopped hnone hrun nofun⟩)
          · exact .stop hst hrun nofun henv hbase (.inr ⟨.inl (hwhy.resolve_right hleak),hlit⟩)

end Loop

/-- An upload got its own place. -/
def Revealed (u : Upload) (e : Loc × Node) : Prop := place (split u.path) = some e.1 ∧ e.2 = u.node

section Finishing
variable {files base : Loc → Option Node} {us : List Upload} {w : World}

theorem commitAll_commit {u : Upload} {v : World} (staged : List (Str × Str))
    (h : (during .committing (commitStagedFile rootDirectory u.path u.name)).attempt w =
      (.ok (.ok ()),v)) :
    commitAll rootDirectory (u.staged :: staged) w = commitAll rootDirectory staged v :=
  Program.bind_run h

theorem commitAll_fault {u : Upload} {v : World} {fault : Fault} (staged : List (Str × Str))
    (h : (during .committing (commitStagedFile rootDirectory u.path u.name)).attempt w =
      (.ok (.error fault),v)) :
    commitAll rootDirectory (u.staged :: staged) w = (.ok (u.staged :: staged,.raises fault),v) :=
  Program.bind_run h

/-- The commit loop commits a prefix of the uploads. -/
theorem commitAll_commits (h : Holds files us w) :
    (commitAll rootDirectory (us.map Upload.staged)).Ends w fun r v =>
      ∃ staged left done entries, r = .ok (staged,left) ∧ v.env = w.env ∧ done <+: us ∧
        List.Forall₂ Revealed done entries ∧ Queued (written entries files) staged v ∧
        (left = .fallsThrough → done = us ∧ staged = []) ∧
        (left = .fallsThrough ∨ ∃ e, left = .raises ⟨.committing,e⟩) := by
  induction us generalizing files w with
  | nil => exact ⟨[],_,[],[],rfl,rfl,List.nil_prefix,.nil,⟨[],h,.inl rfl⟩,
      fun _ => ⟨rfl,rfl⟩,.inl rfl⟩
  | cons u us ih =>
    obtain ⟨henv,hcommit⟩ := h.commit
    rcases hrun : commitStagedFile rootDirectory u.path u.name w with ⟨r,v⟩
    rw [hrun] at henv hcommit
    have hattempt : (during .committing (commitStagedFile rootDirectory u.path u.name)).attempt w =
        (.ok (r.mapError (Fault.mk .committing)),v) := by
      unfold Program.attempt during Program.mapError
      rw [hrun]
    cases r with
    | ok _ =>
      obtain ⟨loc,hloc,hrest,_⟩ := hcommit.resolve_left fun h => h.1 rfl
      have hloop := commitAll_commit (us.map Upload.staged) hattempt
      obtain ⟨staged,left,done,entries,hr,henv',hdone,hrev,hq,hleft,hends⟩ := ih hrest
      refine (Program.ends_of_run (hloop.trans (Prod.ext hr rfl))).mpr ⟨staged,left,u :: done,
        (loc,u.node) :: entries,rfl,henv'.trans henv,List.cons_prefix_cons.mpr ⟨rfl,hdone⟩,
        .cons ⟨hloc,rfl⟩ hrev,hq,fun hl => ?_,hends⟩
      obtain ⟨rfl,hs⟩ := hleft hl
      exact ⟨rfl,hs⟩
    | error e =>
      have hloop := commitAll_fault (us.map Upload.staged) hattempt
      rcases hcommit with ⟨_,hkept⟩ | ⟨loc,hloc,hrest,hgone⟩
      · exact (Program.ends_of_run hloop).mpr ⟨_,_,[],[],rfl,henv,List.nil_prefix,.nil,
          ⟨u :: us,hkept,.inl rfl⟩,by simp,.inr ⟨e,rfl⟩⟩
      · exact (Program.ends_of_run hloop).mpr ⟨_,_,[u],[(loc,u.node)],rfl,henv,
          List.cons_prefix_cons.mpr ⟨rfl,List.nil_prefix⟩,.cons ⟨hloc,rfl⟩ .nil,
          ⟨us,hrest,.inr ⟨u,rfl,hgone⟩⟩,by simp,.inr ⟨e,rfl⟩⟩

/-- What discarding the rest leaves. -/
def Cleared (base : Loc → Option Node) (w : World) (r : Except Fault Unit) (v : World) : Prop :=
  r = .ok () ∧ v.env = w.env ∧ Strewn w.env base v.root.leaf ∧ (w.Calm → v.root.leaf = base)

/-- One turn of the loop of the `finally` block. -/
theorem ends_discardTurn {p name : Str} {P : World → Prop}
    (h : (discardStagedFile rootDirectory p name).Ends w fun _ v => P v)
    (hr : (discardStagedFile rootDirectory p name).Raises Os.IsOSError) :
    (during .committing (suppressOSError (discardStagedFile rootDirectory p name))).Ends w
      fun r v => r = .ok () ∧ w.Later v ∧ P v := by
  obtain ⟨hok,hlater,hp⟩ :=
    ends_suppressOSError (h.within (discardStagedFile_later p name)) hr
  refine ⟨?_,hlater,hp⟩
  change ((suppressOSError _ w).1).mapError _ = _
  rw [hok]
  rfl

theorem discardAll_holds (h : Holds base us w) :
    (discardAll rootDirectory (us.map Upload.staged)).Ends w (Cleared base w) := by
  induction us generalizing base w with
  | nil =>
    have hbase : w.root.leaf = base := h.pending.eq_files
    exact ⟨rfl,rfl,hbase ▸ .refl _ _,fun _ => hbase⟩
  | cons u us ih =>
    have hwait := h.waiting u List.mem_cons_self
    have hdrawn := h.drawn u List.mem_cons_self
    have hfree : base (u.loc ++ [u.entry]) = none := h.pending.free _ List.mem_cons_self
    refine Program.Ends.bind (ends_discardTurn h.discard (discardStagedFile_raises hwait.normalised
      hwait.place hwait.component hwait.nameOf)) ?_ fun e v h => (nomatch h.1)
    rintro _ v ⟨-,hlater,henv,hleft⟩
    rcases hleft with hgone | ⟨hcalm,hkept⟩
    · refine (ih hgone).mono fun r u ⟨hr,henv',hstrewn,hclear⟩ => ?_
      exact ⟨hr,henv'.trans henv,henv ▸ hstrewn,fun hcalm => hclear (hcalm.later hlater)⟩
    · refine (ih hkept.keep).mono fun r u ⟨hr,henv',hstrewn,_⟩ => ?_
      exact ⟨hr,henv'.trans henv,(strewn_update hdrawn hfree).trans (henv ▸ hstrewn),
        fun h => absurd h hcalm⟩

theorem discardAll_queued {staged : List (Str × Str)} (h : Queued base staged w) :
    (discardAll rootDirectory staged).Ends w (Cleared base w) := by
  obtain ⟨us,hholds,rfl | ⟨u,rfl,hgone⟩⟩ := h
  · exact discardAll_holds hholds
  · have hdiscard : (discardStagedFile rootDirectory u.path u.name).Ends w fun _ v =>
        v.env = w.env ∧ Holds base us v :=
      ends_discardStagedFile_gone hgone.normalised hgone.place hgone.component hgone.nameOf hgone.get
        fun r v hroot hk => ⟨hk.env,hholds.stays (hroot ▸ hholds.pending) (hroot ▸ .refl _) hk.env⟩
    refine Program.Ends.bind (ends_discardTurn hdiscard (discardStagedFile_raises hgone.normalised
      hgone.place hgone.component hgone.nameOf)) ?_ fun e v h => (nomatch h.1)
    rintro _ v ⟨-,hlater,henv,hrest⟩
    refine (discardAll_holds hrest).mono fun r u ⟨hr,henv',hstrewn,hclear⟩ => ?_
    exact ⟨hr,henv'.trans henv,henv ▸ hstrewn,fun hcalm => hclear (hcalm.later hlater)⟩

end Finishing

/-- How the staging block ends, once the rest is discarded. -/
def Left.outcome (fields : Fields) : Left → Except Fault (Except ExecuteResponse Fields)
  | .fallsThrough => .ok (.ok fields)
  | .returns response => .ok (.error response)
  | .raises fault => .error fault

/-- A staging block on its way: what the loop over the parts ended with, what was then left staged
and how, and what was made of the uploads. -/
structure Course where
  fields : Fields
  left : Left
  read : World
  staged : List (Str × Str)
  ending : Left
  committed : World
  base : Loc → Option Node
  uploads : List Upload
  done : List Upload
  entries : List (Loc × Node)

/-- The block commits a prefix of what was staged for a prefix of the attachments, and then it
discards the rest. -/
structure Course.Of (limits : Limits) (body : List (Except (Exc AppError) Part)) (w : World)
    (c : Course) (x : World) : Prop where
  reads : readParts limits rootDirectory ⟨none,none,[]⟩ body w = (.ok (c.fields,c.left),c.read)
  commits : validateAndCommit rootDirectory c.fields (malformed c.left) c.read =
    (.ok (c.staged,c.ending),c.committed)
  gathered : Gathered limits ⟨none,none,[]⟩ body w.root.leaf [] w c.fields c.left c.base c.uploads
    c.read
  env : c.committed.env = c.read.env
  initial : c.done <+: c.uploads
  revealed : List.Forall₂ Revealed c.done c.entries
  complete : c.ending = .fallsThrough →
    c.left = .fallsThrough ∧ c.done = c.uploads ∧ c.staged = []
  early : c.left ≠ .fallsThrough → c.done = []
  unfinished : c.done = [] ∨ c.ending = .fallsThrough ∨ ∃ e, c.ending = .raises ⟨.committing,e⟩
  queued : Queued (written c.entries c.base) c.staged c.committed
  cleared : Cleared (written c.entries c.base) c.committed (.ok ()) x
  nothing : c.staged = [] → x = c.committed

section Block
variable {limits : Limits} {body : List (Except (Exc AppError) Part)} {w : World}

theorem malformed_eq_fallsThrough {left : Left} (h : malformed left = .fallsThrough) :
    left = .fallsThrough := by
  unfold malformed at h
  split at h
  all_goals first | exact h | cases h

theorem validateAndCommit_commits {fields : Fields} {left : Left} {base : Loc → Option Node}
    {us : List Upload} {v : World} (h : Holds base us v) (hst : fields.staged = us.map Upload.staged) :
    (validateAndCommit rootDirectory fields left).Ends v fun r u =>
      ∃ staged left' done entries, r = .ok (staged,left') ∧ u.env = v.env ∧ done <+: us ∧
        List.Forall₂ Revealed done entries ∧ Queued (written entries base) staged u ∧
        (left' = .fallsThrough → left = .fallsThrough ∧ done = us ∧ staged = []) ∧
        (left ≠ .fallsThrough → done = []) ∧
        (done = [] ∨ left' = .fallsThrough ∨ ∃ e, left' = .raises ⟨.committing,e⟩) := by
  have hstop {left' : Left} (hleft : left' ≠ .fallsThrough) :
      ∃ staged left'' done entries, (.ok (fields.staged,left') : Except Fault _) = .ok (staged,left'') ∧
        v.env = v.env ∧ done <+: us ∧ List.Forall₂ Revealed done entries ∧
        Queued (written entries base) staged v ∧
        (left'' = .fallsThrough → left = .fallsThrough ∧ done = us ∧ staged = []) ∧
        (left ≠ .fallsThrough → done = []) ∧
        (done = [] ∨ left'' = .fallsThrough ∨ ∃ e, left'' = .raises ⟨.committing,e⟩) :=
    ⟨_,_,[],[],rfl,rfl,List.nil_prefix,.nil,⟨us,h,.inl hst⟩,fun hl => absurd hl hleft,fun _ => rfl,
      .inl rfl⟩
  cases left with
  | returns response => exact hstop (by simp)
  | raises fault => exact hstop (by simp)
  | fallsThrough =>
    unfold validateAndCommit
    dsimp only
    split
    · exact hstop (by simp)
    · exact hstop (by simp)
    · rw [hst]
      refine (commitAll_commits h).mono ?_
      rintro _ u ⟨staged,left',done,entries,rfl,henv,hdone,hrev,hq,hleft,hends⟩
      exact ⟨staged,left',done,entries,rfl,henv,hdone,hrev,hq,fun hl => ⟨rfl,hleft hl⟩,
        fun hl => absurd rfl hl,.inr hends⟩

variable (limits) in
theorem stagingBlock_ends (hun : ∀ file ∈ attachments body, ∀ p,
      normalizeSubPath file.1 = .ok p → Unguessed w.env p) :
    (stagingBlock limits rootDirectory body).Ends w fun r x =>
      ∃ c : Course, r = c.ending.outcome c.fields ∧ c.Of limits body w x := by
  have hholds : Holds w.root.leaf [] w := ⟨.nil _,nofun,nofun,nofun⟩
  refine Program.Ends.bind (readParts_gathers limits ⟨none,none,[]⟩ hholds rfl hun).run ?_
    fun e v ⟨_,_,_,_,_,h,_⟩ => nomatch h
  rintro _ v ⟨hread,fields,left,base,new,⟨⟩,hg⟩
  dsimp only
  refine Program.Ends.bind (validateAndCommit_commits hg.holds hg.staged).run ?_
    fun e v ⟨_,_,_,_,_,h,_⟩ => nomatch h
  rintro _ u ⟨hcommit,staged,left',done,entries,⟨⟩,henv,hdone,hrev,hq,hcomplete,hearly,hends⟩
  dsimp only
  refine Program.Ends.bind (discardAll_queued hq).run ?_ fun e x h => nomatch h.2.1
  rintro _ x ⟨hdiscard,hcleared⟩
  have hof : (⟨fields,left,v,staged,left',u,base,new,done,entries⟩ : Course).Of limits body w x := by
    refine ⟨hread,hcommit,hg,henv,hdone,hrev,fun hl => ?_,fun hl => hearly fun h => ?_,hends,hq,
      hcleared,fun hnil => ?_⟩
    · exact (hcomplete hl).imp_left malformed_eq_fallsThrough
    · exact hl (malformed_eq_fallsThrough h)
    · subst hnil
      exact (congrArg Prod.snd hdiscard).symm
  cases left' <;> exact ⟨_,rfl,hof⟩

/-- Each file has a place and its bytes. -/
def Placed (file : Str × Content) (e : Loc × Node) : Prop :=
  ∃ p b, normalizeSubPath file.1 = .ok p ∧ place (split p) = some e.1 ∧
    e.2 = .file b file.2.body

/-- The block commits a prefix of the attachments, all of them if the request is not refused.
Otherwise every file is as it was, and there is no other. -/
structure NoDebris (limits : Limits) (body : List (Except (Exc AppError) Part)) (w : World) : Prop where
  ends : (stagingBlock limits rootDirectory body).Ends w fun r v => ∃ cs entries,
    cs <+: attachments body ∧ (∀ fields, r = .ok (.ok fields) → cs = attachments body) ∧
      List.Forall₂ Placed cs entries ∧ v.root.leaf = written entries w.root.leaf

/-- Temporary files can be removed. -/
structure Discards (limits : Limits) (body : List (Except (Exc AppError) Part)) (w : World) :
    Prop where
  tidy : Tidy w.env
  calm : ∀ fields left v staged left' u,
    readParts limits rootDirectory ⟨none,none,[]⟩ body w = (.ok (fields,left),v) →
    validateAndCommit rootDirectory fields (malformed left) v = (.ok (staged,left'),u) →
    staged ≠ [] → u.Calm

theorem placed_of_revealed {cs : List (Str × Content)} {us : List Upload}
    {entries : List (Loc × Node)} (hcs : List.Forall₂ Carries cs us)
    (hrev : List.Forall₂ Revealed us entries) : List.Forall₂ Placed cs entries := by
  induction hrev generalizing cs with
  | nil =>
    cases hcs
    exact .nil
  | cons hrev _ ih =>
    cases hcs with
    | cons hcarries hcs =>
      obtain ⟨hq,b,hb⟩ := hcarries
      exact .cons ⟨_,b,hq,hrev.1,hrev.2.trans hb⟩ (ih hcs)

variable {c : Course} {x : World}

/-- What was committed is a prefix of the attachments. -/
theorem Course.Of.placed (h : c.Of limits body w x) : ∃ cs, cs <+: attachments body ∧
    (c.ending = .fallsThrough → cs = attachments body) ∧ List.Forall₂ Placed cs c.entries := by
  obtain ⟨cs,hcs,hcarries,hall⟩ := h.gathered.carries
  obtain ⟨rest,hrest⟩ := h.initial
  refine ⟨cs.take c.done.length,(List.take_prefix _ _).trans hcs,fun hending => ?_,
    placed_of_revealed (List.forall₂_take_append _ _ rest (hrest ▸ hcarries)) h.revealed⟩
  obtain ⟨hleft,hdone,_⟩ := h.complete hending
  rw [hdone,← List.Forall₂.length_eq hcarries,List.take_length,hall hleft]

/-- What the session holds once nothing is staged any more. -/
theorem Course.Of.leaf (h : c.Of limits body w x) (hcalm : c.staged ≠ [] → c.committed.Calm) :
    x.root.leaf = written c.entries c.base := by
  by_cases hst : c.staged = []
  · obtain ⟨us,hholds,hq⟩ := h.queued
    rw [hst] at hq
    rcases hq with hnil | ⟨u,hcons,_⟩
    · rw [List.map_eq_nil_iff.mp hnil.symm] at hholds
      rw [h.nothing hst]
      exact hholds.pending.eq_files
    · cases hcons
  · exact h.cleared.2.2.2 (hcalm hst)

/-- No attachment has a temporary name. -/
theorem not_tempName_of_placed {cs : List (Str × Content)} {entries : List (Loc × Node)} {loc : Loc}
    {d : Name} (hun : ∀ file ∈ cs, ∀ p, normalizeSubPath file.1 = .ok p → Unguessed w.env p)
    (hplaced : List.Forall₂ Placed cs entries) (hd : TempName w.env d) :
    ∀ e ∈ entries, e.1 ≠ loc ++ [d] := by
  induction hplaced with
  | nil => exact nofun
  | cons hplaced _ ih =>
    refine List.forall_mem_cons.mpr ⟨fun heq => ?_,
      ih fun file hfile => hun file (List.mem_cons_of_mem _ hfile)⟩
    obtain ⟨p,b,hq,hloc,_⟩ := hplaced
    obtain ⟨q,c,_,hc,hsplit⟩ := place_split hloc
    have hcd : c = d := by simpa using (List.append_inj' (hsplit.symm.trans heq) rfl).2
    exact hun _ List.mem_cons_self p hq c hc (hcd ▸ hd)

theorem NoDebris.tempName {loc : Loc} {d : Name} (h : NoDebris limits body w)
    (hun : ∀ file ∈ attachments body, ∀ p, normalizeSubPath file.1 = .ok p → Unguessed w.env p)
    (hd : TempName w.env d) (hnone : w.root.leaf (loc ++ [d]) = none) :
    (stagingBlock limits rootDirectory body w).2.root.leaf (loc ++ [d]) = none := by
  obtain ⟨cs,entries,hcs,_,hplaced,hleaf⟩ := h.ends
  rw [hleaf,written_other (not_tempName_of_placed (fun file hfile => hun file (hcs.subset hfile))
    hplaced hd),hnone]

/-- Only a descriptor that cannot be closed while the parts are read makes the staging block leave
anything behind. -/
theorem noDebris_iff (hd : Discards limits body w) (hun : ∀ file ∈ attachments body, ∀ p,
      normalizeSubPath file.1 = .ok p → Unguessed w.env p) :
    NoDebris limits body w ↔ ¬Leaks limits ⟨none,none,[]⟩ body w := by
  have hends := stagingBlock_ends limits hun
  rcases hrun : stagingBlock limits rootDirectory body w with ⟨r,x⟩
  obtain ⟨c,rfl,hof⟩ := (Program.ends_of_run hrun).mp hends
  have hleaf := hof.leaf (hd.calm _ _ _ _ _ _ hof.reads hof.commits)
  constructor
  · intro hclean hleak
    rcases hof.gathered.clean with ⟨_,hno⟩ | ⟨_,⟨loc,d,n,hd,hnone,hbase⟩,hstop⟩
    · exact hno hleak
    · -- nothing was committed, and the temporary file is still there
      have hrev := hof.revealed
      rw [hof.early hstop,List.forall₂_nil_left_iff] at hrev
      have hat : x.root.leaf (loc ++ [d]) = none := by
        have := hclean.tempName hun hd hnone
        rwa [hrun] at this
      rw [hleaf,hrev,hbase] at hat
      change Function.update w.root.leaf (loc ++ [d]) (some n) (loc ++ [d]) = none at hat
      rw [Function.update_self] at hat
      cases hat
  · intro hno
    have hbase : c.base = w.root.leaf := by
      rcases hof.gathered.clean with ⟨hbase,_⟩ | ⟨hwhy,_⟩
      · exact hbase
      · exact absurd hwhy (not_or.mpr ⟨not_not.mpr hd.tidy,hno⟩)
    obtain ⟨cs,hcs,hall,hplaced⟩ := hof.placed
    refine ⟨(Program.ends_of_run hrun).mpr ⟨cs,c.entries,hcs,fun fields hr => ?_,hplaced,
      hbase ▸ hleaf⟩⟩
    cases hending : c.ending with
    | returns response =>
      rw [hending] at hr
      cases hr
    | raises fault =>
      rw [hending] at hr
      cases hr
    | fallsThrough => exact hall hending

/-- Temporary files can be removed where the calls for it work. -/
theorem discards_of_calls
    (hcalls : ∀ call ∈ [Call.open,.close,.unlink], ∀ n, w.env.fault call n = none)
    (hun : ∀ file ∈ attachments body, ∀ p, normalizeSubPath file.1 = .ok p → Unguessed w.env p) :
    Discards limits body w := by
  have hholds : Holds w.root.leaf [] w := ⟨.nil _,nofun,nofun,nofun⟩
  refine ⟨hcalls _ (by simp),fun fields left v staged left' u hread hcommit _ => ?_⟩
  obtain ⟨fields',left'',base,new,hr,hg⟩ :=
    (Program.ends_of_run hread).mp (readParts_gathers limits ⟨none,none,[]⟩ hholds rfl hun)
  cases hr
  obtain ⟨_,_,_,_,_,henv',_⟩ := (Program.ends_of_run hcommit).mp
    (validateAndCommit_commits hg.holds hg.staged)
  intro call hcall n _
  rw [henv',hg.env]
  exact hcalls call hcall n

theorem readPart_env (fields : Fields) (part : Part) :
    (readPart limits rootDirectory fields part).Ends w fun _ v => v.env = w.env := by
  cases hfile : part.attachment with
  | none => exact (readPart_other limits fields hfile).1.env
  | some file =>
    rw [readPart_attachment limits fields hfile]
    exact Program.Ends.bind (R := fun _ v => v.env = w.env) (stageFile_env _ file)
      (fun _ v hv => hv) fun _ v hv => hv

/-- Nothing leaks where descriptors can be closed. -/
theorem not_leaks_of_close {fields : Fields} (hfreed : ∀ n, w.env.freed n = false)
    (h : ∀ n, w.env.fault .close n = none) : ¬Leaks limits fields body w := by
  induction body generalizing fields w with
  | nil => exact fun h => h
  | cons read parts ih =>
    cases read with
    | error e => exact fun h => h
    | ok part =>
      rintro (⟨file,_,hleak⟩ | ⟨fields',v,hrun,hleak⟩)
      · exact (not_leaks hfreed h).1 hleak
      · have henv : v.env = w.env := (Program.ends_of_run hrun).mp (readPart_env fields part)
        exact ih (henv ▸ hfreed) (henv ▸ h) hleak

end Block

/-- A file of one byte. -/
def filePart (filename : String) (byte : Byte) : Part :=
  ⟨some (lit "attachments"),some (lit filename),.bytes [byte],fun _ => .error .encoding⟩

def stagingLimits : Limits := ⟨9,100,10,0⟩

/-- The name of the temporary file where the random digits are a one. -/
def exampleTemp : Name :=
  ⟨[0x2E,0x63,0x6F,0x64,0x65,0x5F,0x65,0x78,0x65,0x63,0x75,0x74,0x6F,0x72,0x5F,0x75,0x70,0x6C,0x6F,
    0x61,0x64,0x5F,0x42],by decide⟩

theorem tempName_example (call : Call) (n : ℕ) (errno : Option Errno) :
    TempName (sessionFailing call n errno).env exampleTemp := by
  have hname : nameOf (tempPrefix ++ [Os.digit 1]) = some exampleTemp := by decide
  exact ⟨0,hname⟩

/-- A file of another name. -/
theorem unguessed_sessionFailing {filename p : Str} (call : Call) (n : ℕ) (errno : Option Errno)
    (hp : normalizeSubPath filename = .ok p)
    (hne : (normalizeSubPath filename).toOption.bind (fun p => nameOf (lastPart p)) ≠
      nameOf (tempPrefix ++ [Os.digit 1])) : Unguessed (sessionFailing call n errno).env p := by
  rw [hp] at hne
  exact fun c hc ⟨k,hk⟩ => hne (hc.trans hk.symm)

theorem unguessed_filePart (call : Call) (n : ℕ) (errno : Option Errno) :
    ∀ file ∈ attachments [.ok (filePart "d/b" 1),.ok (filePart "a" 2)], ∀ p,
      normalizeSubPath file.1 = .ok p → Unguessed (sessionFailing call n errno).env p := by
  refine List.forall_mem_cons.mpr ⟨fun p hp => ?_,List.forall_mem_singleton.mpr fun p hp => ?_⟩
  · exact unguessed_sessionFailing call n errno hp (by decide)
  · exact unguessed_sessionFailing call n errno hp (by decide)

/-- One attachment waits when there is no space for the next one. -/
theorem noDebris_fullSession :
    NoDebris stagingLimits [.ok (filePart "d/b" 1),.ok (filePart "a" 2)] (fullSession 25) := by
  have hcalls : ∀ call ∈ [Call.open,.close,.unlink], ∀ n,
      (sessionFailing .write 25 (some .enospc)).env.fault call n = none := by
    intro call hcall n
    refine fault_sessionFailing ?_
    rintro rfl
    exact absurd hcall (by decide)
  have hun := unguessed_filePart .write 25 (some .enospc)
  have hdiscards : Discards stagingLimits [.ok (filePart "d/b" 1),.ok (filePart "a" 2)]
      (fullSession 25) := discards_of_calls hcalls hun
  exact (noDebris_iff hdiscards hun).mpr
    (not_leaks_of_close (fun _ => rfl) (hcalls .close (by simp)))

/-- The directory cannot be closed. -/
theorem staging_debris : Discards stagingLimits [.ok (filePart "a" 1)]
      (sessionFailing .close 13 (some .eio)) ∧
    ¬NoDebris stagingLimits [.ok (filePart "a" 1)] (sessionFailing .close 13 (some .eio)) := by
  constructor
  · refine ⟨fun n => fault_sessionFailing (by decide),
      fun fields left v staged left' u hread hcommit hst => ?_⟩
    have hnone : ((readParts stagingLimits rootDirectory ⟨none,none,[]⟩ [.ok (filePart "a" 1)] >>=
        fun r => validateAndCommit rootDirectory r.1 (malformed r.2))
        (sessionFailing .close 13 (some .eio))).1.toOption.map Prod.fst = some [] := by
      decide +kernel
    rw [Program.bind_run hread,hcommit] at hnone
    exact absurd (Option.some.inj hnone) hst
  · intro h
    have hleft : ((stagingBlock stagingLimits rootDirectory [.ok (filePart "a" 1)]
        (sessionFailing .close 13 (some .eio))).2.root.leaf ([] ++ [exampleTemp])).isSome = true := by
      decide +kernel
    rw [h.tempName (List.forall_mem_singleton.mpr fun p hp =>
      unguessed_sessionFailing .close 13 (some .eio) hp (by decide))
      (tempName_example .close 13 (some .eio)) rfl] at hleft
    cases hleft

end CodeExecutorApi
