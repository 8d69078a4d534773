import CodeExecutorApi.Routes.Execute
import CodeExecutorApi.Routes.Files
import CodeExecutorApi.Sessions.Footprint

/-! What the handlers do while they hold the lock of a session: they write to no files but those
that they create, and the code that is executed does the rest. -/
namespace CodeExecutorApi
open Python Posix Machine Session

section Files
variable {workDirectory : Str}

theorem handleGetFile_reaches (q : Str) :
    (handleGetFile workDirectory q).Within World.Reaches := by
  have hlisting : (listDirectory workDirectory q >>= fun listing =>
      pure (.json listing) : Api Response).Within World.Reaches :=
    (listDirectory_reaches q).bind fun _ => .pure _
  unfold handleGetFile
  refine Program.Within.handle ?_ fun e => ?_
  · split_ifs
    · exact hlisting
    · refine Program.Within.handle ((readFile_reaches q none).bind fun _ => .pure _) fun e => ?_
      split
      · exact hlisting
      · exact .raise _
  · split <;> first | exact .pure _ | exact .raise _

theorem handlePutFile_reaches (maxFileSize : ℕ) (q : Str) (content : Content) :
    (handlePutFile workDirectory maxFileSize q content).Within World.Reaches := by
  unfold handlePutFile
  refine Program.Within.handle (Program.Within.handle ?_ fun e => ?_) fun e => ?_
  · exact (writeFile_reaches maxFileSize q content).bind fun _ => .pure _
  · split <;> first | exact .pure _ | exact .raise _
  · split <;> first | exact .pure _ | exact .raise _

theorem handleDeleteFile_reaches (q : Str) :
    (handleDeleteFile workDirectory q).Within World.Reaches := by
  unfold handleDeleteFile
  refine Program.Within.handle ((deleteFile_reaches q).bind fun _ => .pure _) fun e => ?_
  split <;> first | exact .pure _ | exact .raise _

/-- A request to the files API writes to no file that was there before. -/
theorem FileRequest.reaches (maxFileSize : ℕ) (r : FileRequest) :
    (r.handler maxFileSize workDirectory).Within World.Reaches := by
  cases r with
  | get q => exact handleGetFile_reaches q
  | put q content => exact handlePutFile_reaches maxFileSize q content
  | delete q => exact handleDeleteFile_reaches q

end Files

section Execution
variable {limits : Limits} {workDirectory : Str} {host : Host}

theorem during_reaches {α : Type} {phase : Phase} {x : Api α} (h : x.Within World.Reaches) :
    (during phase x).Within World.Reaches := h

theorem readTextPart_reaches (part : Part) (maxSize : ℕ) :
    (readTextPart part maxSize).Within World.Reaches := by
  have hloop (written : Bytes) (reads : List (Except (Exc AppError) Bytes)) :
      (readLoop maxSize written reads).Within World.Reaches := by
    induction reads generalizing written with
    | nil => exact .pure _
    | cons read reads ih =>
      refine Os.checkpoint_reaches.bind fun _ => ?_
      split
      · exact .raise _
      · exact .pure _
      · split_ifs
        · exact .raise _
        · exact ih _
  refine (hloop [] _).bind fun content => ?_
  split
  · exact .pure _
  · exact .raise _
  · exact .raise _

theorem readPart_reaches (fields : Fields) (part : Part) :
    (readPart limits workDirectory fields part).Within World.Reaches := by
  unfold readPart
  split_ifs
  · refine .bind (during_reaches ((readTextPart_reaches part 64).handle fun e => ?_))
      fun _ => .pure _
    split <;> exact .raise _
  · exact .bind (during_reaches (readTextPart_reaches part _)) fun _ => .pure _
  · split
    · exact .pure _
    · exact .bind (during_reaches (stageFile_reaches _ _ _)) fun _ => .pure _
  · exact .pure _

theorem readParts_reaches (fields : Fields) (body : List (Except (Exc AppError) Part)) :
    (readParts limits workDirectory fields body).Within World.Reaches := by
  induction body generalizing fields with
  | nil => exact .pure _
  | cons read body ih =>
    cases read with
    | error e => exact .pure _
    | ok part =>
      refine .bind (fun w => readPart_reaches fields part w) fun outcome => ?_
      rcases outcome with fault | response | fields'
      · exact .pure _
      · exact .pure _
      · exact ih fields'

theorem commitAll_reaches (staged : List (Str × Str)) :
    (commitAll workDirectory staged).Within World.Reaches := by
  induction staged with
  | nil => exact .pure _
  | cons st staged ih =>
    refine .bind (fun w => commitStagedFile_reaches st.1 st.2 w) fun outcome => ?_
    cases outcome with
    | ok => exact ih
    | error fault => exact .pure _

theorem validateAndCommit_reaches (fields : Fields) (left : Left) :
    (validateAndCommit workDirectory fields left).Within World.Reaches := by
  unfold validateAndCommit
  split
  · split
    · exact .pure _
    · exact .pure _
    · exact commitAll_reaches _
  · exact .pure _

theorem discardAll_reaches (staged : List (Str × Str)) :
    (discardAll workDirectory staged).Within World.Reaches := by
  induction staged with
  | nil => exact .pure _
  | cons st staged ih => exact .bind (during_reaches (discard_reaches st.1 st.2)) fun _ => ih

theorem stagingBlock_reaches (body : List (Except (Exc AppError) Part)) :
    (stagingBlock limits workDirectory body).Within World.Reaches := by
  refine (readParts_reaches _ body).bind fun read => (validateAndCommit_reaches _ _).bind
    fun committed => (discardAll_reaches _).bind fun _ => ?_
  split <;> first | exact .pure _ | exact .raise _

theorem hostCall_reaches (outcome : Option Errno) : (hostCall outcome).Within World.Reaches := by
  unfold hostCall
  split
  · exact .raise _
  · exact .pure _

theorem await_reaches (wait : Wait) (e : AppError) : (await wait e).Within World.Reaches := by
  unfold await
  split
  · exact .pure _
  · exact .raise _
  · exact .raise _

theorem locked_reaches : (locked host).Within World.Reaches := by
  unfold locked
  split_ifs
  all_goals first
    | exact .bind (.raise _) fun _ => .bind (await_reaches _ _) fun _ => .raise _
    | exact .bind (.raise _) fun _ => .bind (await_reaches _ _) fun _ => .pure _
    | exact .bind (await_reaches _ _) fun _ => .raise _
    | exact .bind (await_reaches _ _) fun _ => .pure _

theorem walkSession_reaches : (walkSession limits).Within World.Reaches :=
  Os.awaitThread_reaches World.Reaches.refl

theorem openPayloads_reaches (payloads : List Payload) (omittedFiles subPaths : List Str) :
    (openPayloads limits workDirectory payloads omittedFiles subPaths).Within World.Reaches := by
  induction subPaths generalizing payloads omittedFiles with
  | nil => exact .pure _
  | cons subPath subPaths ih =>
    unfold openPayloads
    split_ifs
    · exact ih _ _
    · refine .bind (fun w => readFile_reaches subPath _ w) fun outcome => ?_
      split
      · exact ih _ _
      · exact ih _ _
      · exact ih _ _
      · exact .raise _

end Execution

/-- The open files that an answer of the files API streams. -/
def contentPayloads : Except (Exc AppError) Response → List Payload
  | .ok (.content payload) => [payload]
  | _ => []

/-- The open files that an answer to `/execute` streams. -/
def resultPayloads : Except Fault ExecuteResponse → List Payload
  | .ok (.mixed _ _ _ payloads) => payloads
  | _ => []

/-- The code was executed once, and before and after that the process wrote to no files but its
own. -/
def Executes (host : Host) (w v : World) : Prop :=
  ∃ u, w.Reaches u ∧ World.Reaches {u with root := host.code u.root} v

section Execution
variable {limits : Limits} {workDirectory : Str} {host : Host} {w v u : World}

theorem Executes.before (h : w.Reaches v) (h' : Executes host v u) : Executes host w u := by
  obtain ⟨t,ht,htu⟩ := h'
  exact ⟨t,IsTrans.trans w v t h ht,htu⟩

theorem Executes.after (h : Executes host w v) (h' : v.Reaches u) : Executes host w u := by
  obtain ⟨t,ht,htv⟩ := h
  exact ⟨t,ht,IsTrans.trans _ v u htv h'⟩

/-- A container that gives a result has run. -/
theorem ends_runContainer (w : World) : (runContainer host).Ends w fun r v =>
    Executes host w v ∨ w.Reaches v ∧ ∃ fault, r = .error fault := by
  refine Program.Ends.bind (R := fun _ v => w.Reaches v)
    (during_reaches (hostCall_reaches host.openpty) w) ?_ fun e v hv => .inr ⟨hv,e,rfl⟩
  rintro _ v hv
  refine Program.Ends.bind (R := fun r t => ∃ ended, r = .ok ended ∧
    (Executes host w t ∨ w.Reaches t ∧ ∃ fault, ended = .error fault)) ?_ ?_ ?_
  · refine Program.ends_attempt.mpr (Program.Ends.mono (Q := fun r t =>
      Executes host w t ∨ w.Reaches t ∧ ∃ fault, r = .error fault) ?_ fun r t ht => ⟨r,rfl,ht⟩)
    refine Program.Ends.bind (R := fun _ t => w.Reaches t) ?_ ?_ fun e t ht => .inr ⟨ht,e,rfl⟩
    · exact IsTrans.trans w v _ hv (Os.checkpoint_reaches (ε := AppError) v)
    rintro _ t ht
    refine Program.Ends.bind (R := fun _ t => w.Reaches t) ?_ ?_ fun e t ht => .inr ⟨ht,e,rfl⟩
    · exact IsTrans.trans w t _ ht (hostCall_reaches host.start t)
    rintro _ t ht
    -- the code itself
    exact .inl ⟨t,ht,Os.checkpoint_reaches (ε := AppError) _⟩
  · rintro ended t ⟨_,⟨⟩,ht⟩
    refine Program.Ends.bind (R := fun _ x => t.Reaches x) ?_ ?_ ?_
    · refine Program.Within.bind Os.checkpoint_reaches (fun _ => ?_) t
      split
      · exact .pure _
      · exact .raise _
    · rintro output x hx
      cases ended with
      | ok =>
        rcases ht with ht | ⟨_,_,⟨⟩⟩
        exact .inl (ht.after hx)
      | error fault =>
        rcases ht with ht | ⟨ht,_⟩
        · exact .inl (ht.after hx)
        · exact .inr ⟨IsTrans.trans w t x ht hx,fault,rfl⟩
    · rintro e x hx
      rcases ht with ht | ⟨ht,_⟩
      · exact .inl (ht.after hx)
      · exact .inr ⟨IsTrans.trans w t x ht hx,e,rfl⟩
  · rintro e t ⟨_,h,_⟩
    cases h

/-- Results are sent only if the code was executed. -/
theorem ends_execute (w : World) : (execute limits workDirectory host).Ends w fun r v =>
    Executes host w v ∨ w.Reaches v ∧ resultPayloads r = [] := by
  refine Program.Ends.bind (R := fun _ v => w.Reaches v)
    (during_reaches (await_reaches host.slot .executionLimitReached) w) ?_
    fun e v hv => .inr ⟨hv,rfl⟩
  rintro _ v hv
  refine Program.Ends.bind (R := fun _ t => w.Reaches t)
    (IsTrans.trans w v _ hv (walkSession_reaches v)) ?_ fun e t ht => .inr ⟨ht,rfl⟩
  rintro before t ht
  refine (ends_runContainer t).bind (fun result x hx => ?_) fun e x hx => ?_
  · rcases hx with hx | ⟨_,_,⟨⟩⟩
    have hran := hx.before ht
    refine Program.Ends.bind (R := fun _ y => Executes host w y)
      (hran.after (walkSession_reaches x)) ?_ fun e y hy => .inl hy
    rintro after y hy
    refine Program.Ends.bind (R := fun _ z => Executes host w z)
      (hy.after (openPayloads_reaches _ _ _ y)) (fun _ z hz => .inl hz) fun e z hz => .inl hz
  · rcases hx with hx | ⟨hx,-⟩
    · exact .inl (hx.before ht)
    · exact .inr ⟨IsTrans.trans w t x ht hx,rfl⟩

/-- A block that is not left with results. -/
def Left.Empty : Left → Prop
  | .returns response => resultPayloads (.ok response) = []
  | .fallsThrough | .raises _ => True

theorem malformed_empty {left : Left} (h : left.Empty) : (malformed left).Empty := by
  unfold malformed
  split <;> first | exact trivial | exact h

theorem readPart_empty (fields : Fields) (part : Part) :
    (readPart limits workDirectory fields part).Returns fun r =>
      ∀ response, r = .error response → resultPayloads (.ok response) = [] := by
  unfold readPart
  split_ifs
  · exact (Program.Returns.trivial _).bind fun _ _ => .pure fun _ h => by cases h
  · exact (Program.Returns.trivial _).bind fun _ _ => .pure fun _ h => by cases h
  · split
    · exact .pure fun _ h => by cases h; rfl
    · exact (Program.Returns.trivial _).bind fun _ _ => .pure fun _ h => by cases h
  · exact .pure fun _ h => by cases h; rfl

theorem readParts_empty (fields : Fields) (body : List (Except (Exc AppError) Part)) :
    (readParts limits workDirectory fields body).Returns fun r => r.2.Empty := by
  induction body generalizing fields with
  | nil => exact .pure trivial
  | cons read body ih =>
    cases read with
    | error e => exact .pure trivial
    | ok part =>
      refine (Program.Returns.attempt (P := fun _ => True) (fun _ _ _ => trivial)
        (readPart_empty fields part)).bind fun outcome houtcome => ?_
      rcases outcome with fault | response | fields'
      · exact .pure trivial
      · exact .pure (houtcome response rfl)
      · exact ih fields'

theorem validateAndCommit_empty (fields : Fields) {left : Left} (h : left.Empty) :
    (validateAndCommit workDirectory fields left).Returns fun r => r.2.Empty := by
  have hcommit (staged : List (Str × Str)) :
      (commitAll workDirectory staged).Returns fun r => r.2.Empty := by
    induction staged with
    | nil => exact .pure trivial
    | cons st staged ih =>
      refine (Program.Returns.trivial _).bind fun outcome _ => ?_
      cases outcome with
      | ok => exact ih
      | error fault => exact .pure trivial
  unfold validateAndCommit
  split
  · split
    · exact .pure trivial
    · exact .pure trivial
    · exact hcommit _
  · exact .pure h

theorem stagingBlock_empty (body : List (Except (Exc AppError) Part)) :
    (stagingBlock limits workDirectory body).Returns fun r =>
      ∀ response, r = .error response → resultPayloads (.ok response) = [] := by
  refine (readParts_empty _ body).bind fun read hread =>
    (validateAndCommit_empty read.1 (malformed_empty hread)).bind fun committed hcommitted =>
      (Program.Returns.trivial _).bind fun _ _ => ?_
  rcases committed with ⟨staged,left⟩
  cases left with
  | fallsThrough => exact .pure fun _ h => by cases h
  | returns response => exact .pure fun _ h => by cases h; exact hcommitted
  | raises fault => exact .raise _

/-- The whole section of a request to execute code. -/
theorem ends_lockedBlock (body : List (Except (Exc AppError) Part)) (w : World) :
    (lockedBlock limits workDirectory host body).Ends w fun r v =>
      Executes host w v ∨ w.Reaches v ∧ resultPayloads r = [] := by
  refine Program.Ends.bind (R := fun _ v => w.Reaches v) (during_reaches locked_reaches w) ?_
    fun e v hv => .inr ⟨hv,rfl⟩
  rintro _ v hv
  refine Program.Ends.bind (R := fun r t => w.Reaches t ∧
    ∀ staged, r = .ok staged → ∀ response, staged = .error response →
      resultPayloads (.ok response) = []) ?_ ?_ fun e t ht => .inr ⟨ht.1,rfl⟩
  · exact ⟨IsTrans.trans w v _ hv (stagingBlock_reaches body v),
      fun staged hstaged => stagingBlock_empty body v staged hstaged⟩
  rintro staged t ⟨ht,hempty⟩
  cases staged with
  | error response => exact .inr ⟨ht,hempty _ rfl response rfl⟩
  | ok fields =>
    refine (ends_execute t).mono fun r x hx => ?_
    rcases hx with hx | ⟨hx,hr⟩
    · exact .inl (hx.before ht)
    · exact .inr ⟨IsTrans.trans w t x ht hx,hr⟩

end Execution
end CodeExecutorApi
