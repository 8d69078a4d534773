import CodeExecutorApi.Routes.Answers
import CodeExecutorApi.Sessions.Uploading

/-! Which requests to the files API are answered with a documented status whatever the tree is, on a
host where nothing but the storage runs out. -/
namespace CodeExecutorApi
open Python Posix Machine

/-- The statuses of the files API are 200, 204, 400, 404, 409 and 413. -/
def Reply.documented : Reply → Bool
  | .listing _ | .body _ | .noContent => true
  | .error status _ => status ∈ [400,404,409,413]
  | .internalServerError | .dropped => false

/-- What `token_urlsafe(8)` gives is drawable, and calls fail as the tree says or for lack of
storage. -/
structure Undisturbed (env : Environment) : Prop where
  steady : env.Steady
  drawn : ∀ n, Drawable (env.random n)

def FileRequest.Arrives : FileRequest → Prop
  | .put _ content => content.Arrives
  | .get _ | .delete _ => True

/-- The path cannot be looked up, or what it leads to cannot be opened or sent: no payload is made for
some names. -/
def GetHazard (refuses : Str → Bool) (t : Node) (q : Str) : Prop :=
  if strip q = [] then t.attr.mode.read = false
  else ∃ p, normalizeSubPath q = .ok p ∧ (reach t p = .error .refused ∨ ∃ n, reach t p = .ok n ∧
    (unopenable n = true ∨ n.type = .regular ∧ (refuses p = true ∨ hasSurrogate p = true)))

/-- The path cannot be looked up, or its file is in a directory that cannot be changed. -/
def DeleteHazard (t : Node) (q : Str) : Prop :=
  ∃ p, normalizeSubPath q = .ok p ∧ (reach t p = .error .refused ∨ ∃ n, reach t p = .ok n ∧
    n.type ≠ .directory ∧ changeable t p = false)

/-- The directory of the path cannot be walked to or made, or it cannot be changed, or something in
it has a name that may be drawn, or nothing can have the last name of the path. -/
def PutHazard (maxFileSize : ℕ) (t : Node) (q : Str) (content : Content) : Prop :=
  ∃ p, normalizeSubPath q = .ok p ∧ (parentOf true t p = .error .refused ∨
    ∃ loc, parentOf true t p = .ok loc ∧ (¬Changeable (modeAt t loc) ∨
      (∃ digits c, Drawable digits ∧ nameOf (tempName digits) = some c ∧
        t.get (loc ++ [c]) ≠ none) ∨
      content.body.length ≤ maxFileSize ∧ nameOf (Session.lastPart p) = none))

def Hazard (refuses : Str → Bool) (maxFileSize : ℕ) (t : Node) : FileRequest → Prop
  | .get q => GetHazard refuses t q
  | .put q content => PutHazard maxFileSize t q content
  | .delete q => DeleteHazard t q

/-- What a handler ended with is answered with a documented status exactly if `P` holds. -/
def AnsweredIff (P : Prop) : Except (Exc AppError) Response → World → Prop
  | .error e,_ => (answerTo e).documented = true ↔ P
  | .ok (.content payload),v => P ∧ v.env.Reliable ∧ ∃ loc a content, v.Has payload.fd loc ∧
      v.root.get loc = some (.file a content)
  | .ok (.error status message),_ => (Reply.error status message).documented = true ↔ P
  | .ok _,_ => P

theorem serve_documented {handler : Api Response} {w : World} {P : Prop}
    (h : handler.Ends w (AnsweredIff P)) : (serve handler w).1.documented = true ↔ P := by
  refine serve_eq (Q := fun reply _ => reply.documented = true ↔ P) (h.mono fun r v hr => ?_)
  cases r with
  | error e => exact hr
  | ok response =>
    cases response with
    | json listing => exact ⟨_,rfl,iff_of_true rfl hr⟩
    | noContent => exact ⟨_,rfl,iff_of_true rfl hr⟩
    | error status message => exact ⟨_,rfl,hr⟩
    | content payload =>
      obtain ⟨hP,henv,loc,a,content,hhas,hget⟩ := hr
      refine Program.Ends.ensure (R := fun r u => r = .ok (.body content) ∧ u = v) ?_ ?_
      · refine Program.Ends.bind (R := fun r u => r = .ok content ∧ u = v)
          (Os.ends_read hhas hget ⟨rfl,rfl⟩) ?_ fun e u h => by cases h.1
        rintro _ u ⟨⟨⟩,rfl⟩
        exact ⟨rfl,rfl⟩
      · rintro _ u ⟨rfl,rfl⟩
        exact Os.ends_close_reliable henv hhas fun x _ => ⟨rfl,_,rfl,iff_of_true rfl hP⟩

namespace Session
variable {w : World} {q p : Str}

theorem ends_normalize_error {α : Type} {e : InvalidPath} {f : Str → Api α}
    (hq : normalizeSubPath q = .error e) :
    (normalize q >>= f).Ends w fun r _ => r = .error (.app (.validationError e)) := by
  rw [normalize,hq]
  rfl

theorem refusal_undocumented {e : Exc AppError} (h : Refusal e ∨ e = .valueError) :
    (answerTo e).documented = false := by
  rw [answerTo_refusal h]
  rfl

/-- What the `try` block of the handler of GET raises on a path, and when. -/
inductive GetFails (refuses : Str → Bool) (t : Node) (q : Str) : Exc AppError → Prop
  | refused {e : Exc AppError} (h : GetHazard refuses t q) (he : Refusal e ∨ e = .valueError) :
    GetFails refuses t q e
  | missing {errno : Option Errno} (h : ¬GetHazard refuses t q) :
    GetFails refuses t q (.os .fileNotFound errno)

/-- Reading a path fails like this, or it finds a directory. -/
theorem serves_error {e : Exc AppError} (hq : normalizeSubPath q = .ok p)
    (h : Serves w.env.refuses w.root p (.error e)) : GetFails w.env.refuses w.root q e ∨
      ¬GetHazard w.env.refuses w.root q ∧ e = .os .isADirectory none ∧
        ∃ n, reach w.root p = .ok n ∧ n.type = .directory ∧ unopenable n = false := by
  have hazard : GetHazard w.env.refuses w.root q ↔
      reach w.root p = .error .refused ∨ ∃ n, reach w.root p = .ok n ∧
        (unopenable n = true ∨
          n.type = .regular ∧ (w.env.refuses p = true ∨ hasSurrogate p = true)) := by
    simp [GetHazard,strip_ne_nil hq,hq]
  rcases h with ⟨b,he,hb⟩ | ⟨n,hn,⟨hbad,he⟩ | ⟨hun,⟨hd,rfl⟩ | ⟨hd,hreg,errno,rfl⟩⟩⟩
  · cases b with
    | refused => exact .inl (.refused (hazard.mpr (.inl hb)) (.inl he))
    | missing =>
      have hno : ¬GetHazard w.env.refuses w.root q := by simp [hazard,hb]
      rcases he with rfl | rfl <;> exact .inl (.missing hno)
  · exact .inl (.refused (hazard.mpr (.inr ⟨n,hn,hbad⟩)) he)
  · exact .inr ⟨by simp [hazard,hn,hun,hd],rfl,n,hn,hd,hun⟩
  · exact .inl (.missing (by simp [hazard,hn,hun,hreg]))

/-- GET of a path that is not the session itself. -/
theorem ends_getPath (henv : w.env.Steady) (ht : w.root.isDir = true)
    (hq : normalizeSubPath q = .ok p) :
    (handleGetFile rootDirectory q).Ends w (AnsweredIff ¬GetHazard w.env.refuses w.root q) := by
  unfold handleGetFile
  rw [if_neg (strip_ne_nil hq)]
  refine Program.Ends.handle (R := fun r v => match r with
    | .error e => GetFails w.env.refuses w.root q e
    | .ok response => AnsweredIff (¬GetHazard w.env.refuses w.root q) (.ok response) v) ?_
    (fun _ v h => h) fun e v h => ?_
  · refine Program.Ends.handle (R := fun r v => match r with
      | .error e => Still w v ∧ Serves w.env.refuses w.root p (.error e)
      | .ok response => AnsweredIff (¬GetHazard w.env.refuses w.root q) (.ok response) v) ?_
      (fun _ v h => h) fun e v h => ?_
    · refine Program.Ends.bind (ends_readFile_any henv ht hq) ?_ fun e v h => ⟨h.1,h.2.1⟩
      rintro payload v ⟨hv,⟨n,hn,hreg,hun,hrefuses,hsur⟩,hopen⟩
      refine ⟨?_,hv.keeps.env ▸ henv.reliable,hopen⟩
      simp [GetHazard,strip_ne_nil hq,hq,hn,hun,hrefuses,hsur]
    · obtain ⟨hv,he⟩ := h
      rcases serves_error hq he with hfail | ⟨hno,rfl,n,hn,hd,hun⟩
      · cases hfail with
        | refused hyes he =>
          have hfail : GetFails w.env.refuses w.root q e := .refused hyes he
          rcases he with ((rfl | rfl) | rfl) | rfl <;> exact hfail
        | missing hno => exact .missing hno
      · refine Program.Ends.bind (ends_listReached (hv.keeps.env ▸ henv) (hv.root ▸ ht) hq
          (hv.root ▸ hn) hd hun) (fun listing u _ => hno) fun e u h => ?_
        obtain ⟨_,_,h⟩ := h
        cases h
  · cases h with
    | refused hyes he =>
      have hfail : (answerTo e).documented = true ↔ ¬GetHazard w.env.refuses w.root q := by
        simp [refusal_undocumented he,hyes]
      rcases he with ((rfl | rfl) | rfl) | rfl <;> exact hfail
    | missing hno => exact iff_of_true rfl hno

theorem ends_getFile (henv : w.env.Steady) (ht : w.root.isDir = true) :
    (handleGetFile rootDirectory q).Ends w (AnsweredIff ¬GetHazard w.env.refuses w.root q) := by
  by_cases hstrip : strip q = []
  · obtain ⟨a,es,hdir⟩ := Node.eq_dir ht
    have hazard : GetHazard w.env.refuses w.root q ↔ a.mode.read = false := by
      simp [GetHazard,hstrip,hdir,Node.attr]
    unfold handleGetFile
    rw [if_pos hstrip]
    refine Program.Ends.handle (R := fun r _ => a.mode.read = true ∧ (∃ listing,
      r = .ok (.json listing)) ∨ a.mode.read = false ∧ r = .error (Os.oserror .eacces)) ?_ ?_ ?_
    · refine Program.Ends.bind (ends_listRoot_any henv hstrip hdir) ?_ ?_
      · rintro listing v ⟨_,⟨hread,_⟩ | ⟨_,h⟩⟩
        · exact .inl ⟨hread,listing,rfl⟩
        · cases h
      · rintro e v ⟨_,⟨_,_,h⟩ | ⟨hread,h⟩⟩
        · cases h
        · cases h
          exact .inr ⟨hread,rfl⟩
    · rintro _ v (⟨hread,listing,⟨⟩⟩ | ⟨_,⟨⟩⟩)
      change ¬GetHazard w.env.refuses w.root q
      simp [hazard,hread]
    · rintro _ v (⟨_,_,⟨⟩⟩ | ⟨hread,⟨⟩⟩)
      exact iff_of_false (by decide) (not_not.mpr (hazard.mpr hread))
  · cases hq : normalizeSubPath q with
    | ok p => exact ends_getPath henv ht hq
    | error e =>
      have hno : ¬GetHazard w.env.refuses w.root q := by simp [GetHazard,hstrip,hq]
      have hread : (readFile rootDirectory q none).Ends w fun r _ =>
          r = .error (.app (.validationError e)) := ends_normalize_error hq
      unfold handleGetFile
      rw [if_neg hstrip]
      refine Program.Ends.handle (R := fun r _ => r = .error (.app (.validationError e)))
        (Program.Ends.handle (R := fun r _ => r = .error (.app (.validationError e)))
          (hread.bind (fun _ _ h => by cases h) fun _ _ h => by cases h; rfl)
          (fun _ _ h => by cases h) fun _ _ h => by cases h; rfl)
        (fun _ _ h => by cases h) fun _ v h => ?_
      cases h
      exact iff_of_true rfl hno

theorem ends_deletePath (henv : w.env.Steady) (ht : w.root.isDir = true) :
    (handleDeleteFile rootDirectory q).Ends w (AnsweredIff ¬DeleteHazard w.root q) := by
  unfold handleDeleteFile
  cases hq : normalizeSubPath q with
  | error e =>
    have hno : ¬DeleteHazard w.root q := by simp [DeleteHazard,hq]
    have hdelete : (deleteFile rootDirectory q).Ends w fun r _ =>
        r = .error (.app (.validationError e)) := ends_normalize_error hq
    refine Program.Ends.handle (R := fun r _ => r = .error (.app (.validationError e)))
      (hdelete.bind (fun _ _ h => by cases h) fun _ _ h => by cases h; rfl)
      (fun _ _ h => by cases h) fun _ v h => ?_
    cases h
    exact iff_of_true rfl hno
  | ok p =>
    have hazard : DeleteHazard w.root q ↔ reach w.root p = .error .refused ∨
        ∃ n, reach w.root p = .ok n ∧ n.type ≠ .directory ∧ changeable w.root p = false := by
      simp [DeleteHazard,hq]
    refine Program.Ends.handle (R := fun r _ => match r with
      | .error e => Deletes w.root p (.error e)
      | .ok response => response = .noContent ∧ ¬DeleteHazard w.root q) ?_ ?_ fun e v h => ?_
    · refine (ends_deleteFile_any henv ht hq).bind ?_ fun e v h => h
      rintro _ v ⟨n,hn,hd,hchange⟩
      exact ⟨rfl,by simp [hazard,hn,hchange]⟩
    · rintro _ v ⟨rfl,hno⟩
      exact hno
    have hrefused (he : Refusal e) (hyes : DeleteHazard w.root q) :
        (answerTo e).documented = true ↔ ¬DeleteHazard w.root q := by
      simp [refusal_undocumented (.inl he),hyes]
    rcases h with ⟨b,he,hb⟩ | ⟨n,hn,⟨hd,rfl⟩ | ⟨hd,hchange,rfl⟩⟩
    · cases b with
      | refused =>
        have hfail := hrefused he (hazard.mpr (.inl hb))
        rcases he with (rfl | rfl) | rfl <;> exact hfail
      | missing =>
        have hno : ¬DeleteHazard w.root q := by simp [hazard,hb]
        rcases he with rfl | rfl <;> exact iff_of_true rfl hno
    · exact iff_of_true rfl (by simp [hazard,hn,hd])
    · exact hrefused (.inr rfl) (hazard.mpr (.inr ⟨n,hn,hd,hchange⟩))

/-- The exceptions of `write_file` that are answered with a documented status. -/
def caught : Exc AppError → Bool
  | .os .fileNotFound _ | .os .isADirectory _ | .os .notADirectory _ => true
  | .app (.validationError _) | .app (.sessionResourceLimitReached _) => true
  | _ => false

theorem not_caught_of_refusal {e : Exc AppError} (h : Refusal e) : caught e = false := by
  rcases h with (rfl | rfl) | rfl <;> rfl

theorem ends_putFile {maxFileSize : ℕ} {content : Content} {P : Prop}
    (h : (writeFile rootDirectory maxFileSize q content).Ends w fun r _ => match r with
      | .error e => caught e = true ↔ P
      | .ok _ => P) :
    (handlePutFile rootDirectory maxFileSize q content).Ends w (AnsweredIff P) := by
  refine Program.ends_handle.mpr (Program.Ends.handle (R := fun r _ => match r with
    | .error e => caught e = true ↔ P
    | .ok response => response = .noContent ∧ P) ?_ ?_ fun e v h => ?_)
  · exact h.bind (fun _ _ h => ⟨rfl,h⟩) fun _ _ h => h
  · rintro _ v ⟨rfl,h⟩
    exact h
  · cases e with
    | os cls errno => cases cls <;> exact h
    | app e => cases e <;> exact h
    | valueError | unicodeEncodeError | cancelled => exact h

section Put
variable {env : Environment} {maxFileSize : ℕ} {t : Node} {content : Content}

theorem putHazard_iff (hq : normalizeSubPath q = .ok p) :
    PutHazard maxFileSize t q content ↔ parentOf true t p = .error .refused ∨
      ∃ loc, parentOf true t p = .ok loc ∧ (¬Changeable (modeAt t loc) ∨
        (∃ digits c, Drawable digits ∧ nameOf (tempName digits) = some c ∧
          t.get (loc ++ [c]) ≠ none) ∨
        content.body.length ≤ maxFileSize ∧ nameOf (lastPart p) = none) := by
  simp [PutHazard,hq]

/-- Without a hazard `write_file` raises only what is answered. -/
theorem writes_caught {e : Exc AppError} (hdrawn : ∀ n, Drawable (env.random n))
    (harrives : content.Arrives) (hq : normalizeSubPath q = .ok p)
    (hno : ¬PutHazard maxFileSize t q content)
    (h : Writes env maxFileSize content t p (.error e)) : caught e = true := by
  rw [putHazard_iff hq] at hno
  cases h with
  | unstaged h =>
    cases h with
    | full => rfl
    | unread _ he =>
      rw [harrives.reception] at he
      split_ifs at he
      cases he
      rfl
    | @barrier b _ hb he =>
      cases b with
      | missing => rcases he with rfl | rfl <;> rfl
      | refused => exact absurd (.inl hb) hno
    | locked hloc hm => exact absurd (.inr ⟨_,hloc,.inl hm⟩) hno
    | taken hloc ht =>
      obtain ⟨n,_,c,hc,hn⟩ := ht
      exact absurd (.inr ⟨_,hloc,.inr (.inl ⟨_,c,hdrawn n,hc,hn⟩)⟩) hno
  | badName hready hfits hname =>
    obtain ⟨loc,hloc,_⟩ := hready
    exact absurd (.inr ⟨loc,hloc,.inr (.inr ⟨harrives.fits_iff.mp hfits,hname⟩)⟩) hno
  | isDirectory => rfl

/-- Where nothing can be staged, or not under any name that is drawn, or not under the name of the
path, `write_file` raises what is not answered. -/
theorem writes_uncaught {r : Except (Exc AppError) Unit} {digits : List (Fin 64)}
    (harrives : content.Arrives) (hfault : ∀ call n, env.fault call n = none)
    (hrandom : ∀ n, env.random n = digits)
    (hyes : parentOf true t p = .error .refused ∨ ∃ loc, parentOf true t p = .ok loc ∧
      (¬Changeable (modeAt t loc) ∨
        (∃ c, nameOf (tempName digits) = some c ∧ t.get (loc ++ [c]) ≠ none) ∨
        content.body.length ≤ maxFileSize ∧ nameOf (lastPart p) = none))
    (h : Writes env maxFileSize content t p r) : ∃ e, r = .error e ∧ caught e = false := by
  have hready (hr : Ready env t p) :
      content.body.length ≤ maxFileSize ∧ nameOf (lastPart p) = none := by
    obtain ⟨loc,hloc,hm,n,c,hc,hnone⟩ := hr
    rw [hloc] at hyes
    rcases hyes with h | ⟨loc',h,hlock | ⟨c',hc',hn⟩ | hbad⟩
    · cases h
    · cases h
      exact absurd hm hlock
    · cases h
      rw [hrandom] at hc
      cases hc.symm.trans hc'
      exact absurd hnone hn
    · exact hbad
  cases h with
  | unstaged h =>
    refine ⟨_,rfl,?_⟩
    cases h with
    | full h =>
      obtain ⟨call,n,hno⟩ := h
      exact absurd (hfault call n) hno
    | @barrier b _ hb he =>
      rw [hb] at hyes
      rcases hyes with h | ⟨loc,h,_⟩
      · cases h
        exact not_caught_of_refusal he
      · cases h
    | locked hloc hm he => exact not_caught_of_refusal he
    | taken => rfl
    | unread hr he =>
      rw [harrives.reception,if_neg (hready hr).1.not_gt] at he
      cases he
  | badName hr _ hname he => exact ⟨_,rfl,not_caught_of_refusal (.inl he)⟩
  | isDirectory hr _ hname => exact absurd (hready hr).2 hname
  | written hr _ hname => exact absurd (hready hr).2 hname

end Put
end Session

section
open Session
variable {refuses : Str → Bool} {maxFileSize : ℕ} {t : Node}

/-- An environment where nothing fails and the same digits are drawn each time. -/
def calmHost (refuses : Str → Bool) (digits : List (Fin 64)) : Environment where
  maxLinks := 40
  fault _ _ := none
  ino n := n
  now _ := 0
  dirSize _ := 0
  random _ := digits
  interrupt _ := false
  freed _ := false
  refuses := refuses

theorem undisturbed_calmHost {digits : List (Fin 64)} (h : Drawable digits)
    (refuses : Str → Bool) : Undisturbed (calmHost refuses digits) :=
  ⟨⟨fun _ _ _ => rfl,(fun _ _ _ h => by cases h),fun _ => rfl⟩,fun _ => h⟩

/-- A world with the tree in which nothing fails. -/
def calmWorld (refuses : Str → Bool) (digits : List (Fin 64)) (t : Node) : World :=
  ⟨calmHost refuses digits,t,[],3,0,[]⟩

/-- Where there is a hazard, a run goes wrong. -/
theorem hazard_undocumented {r : FileRequest} (ht : t.isDir = true) (harrives : r.Arrives)
    (hyes : Hazard refuses maxFileSize t r) : ∃ digits, Drawable digits ∧
      (r.reply maxFileSize (calmWorld refuses digits t)).documented = false := by
  have hzero : Drawable (List.replicate 11 0) := by decide
  have hsteady := (undisturbed_calmHost hzero refuses).steady
  cases r with
  | get q =>
    refine ⟨_,hzero,Bool.not_eq_true _ ▸ fun h => ?_⟩
    exact (serve_documented (ends_getFile (w := calmWorld refuses _ t) hsteady ht)).mp h hyes
  | delete q =>
    refine ⟨_,hzero,Bool.not_eq_true _ ▸ fun h => ?_⟩
    exact (serve_documented (ends_deletePath (w := calmWorld refuses _ t) hsteady ht)).mp h hyes
  | put q content =>
    obtain ⟨p,hq,hyes⟩ := hyes
    obtain ⟨digits,hdrawn,hyes⟩ : ∃ digits, Drawable digits ∧ (parentOf true t p = .error .refused ∨
        ∃ loc, parentOf true t p = .ok loc ∧ (¬Changeable (modeAt t loc) ∨
          (∃ c, nameOf (tempName digits) = some c ∧ t.get (loc ++ [c]) ≠ none) ∨
          content.body.length ≤ maxFileSize ∧ nameOf (lastPart p) = none)) := by
      rcases hyes with h | ⟨loc,hloc,hlock | ⟨digits,c,hdrawn,hc,hn⟩ | hbad⟩
      · exact ⟨_,hzero,.inl h⟩
      · exact ⟨_,hzero,.inr ⟨loc,hloc,.inl hlock⟩⟩
      · exact ⟨digits,hdrawn,.inr ⟨loc,hloc,.inr (.inl ⟨c,hc,hn⟩)⟩⟩
      · exact ⟨_,hzero,.inr ⟨loc,hloc,.inr (.inr hbad)⟩⟩
    have hcalm := undisturbed_calmHost hdrawn refuses
    refine ⟨digits,hdrawn,Bool.not_eq_true _ ▸ fun h => ?_⟩
    refine (serve_documented (ends_putFile (P := False) ?_)).mp h
    refine (ends_writeFile_any (w := calmWorld refuses digits t) hcalm.steady
      hcalm.drawn ht hq).mono fun r v hr => ?_
    obtain ⟨e,rfl,he⟩ := writes_uncaught harrives (fun _ _ => rfl) (fun _ => rfl) hyes hr
    simp [he]

/-- Without a hazard each run is answered with a documented status. -/
theorem documented_of_not_hazard {r : FileRequest} {w : World} (ht : w.root.isDir = true)
    (harrives : r.Arrives) (hcalm : Undisturbed w.env)
    (hno : ¬Hazard w.env.refuses maxFileSize w.root r) :
    (r.reply maxFileSize w).documented = true := by
  cases r with
  | get q => exact (serve_documented (ends_getFile hcalm.steady ht)).mpr hno
  | delete q => exact (serve_documented (ends_deletePath hcalm.steady ht)).mpr hno
  | put q content =>
    refine (serve_documented (ends_putFile (P := True) ?_)).mpr trivial
    cases hq : normalizeSubPath q with
    | error e =>
      have hstage : (stageFile rootDirectory maxFileSize q content).Ends w fun r _ =>
          r = .error (.app (.validationError e)) := ends_normalize_error hq
      refine hstage.bind (fun _ _ h => by cases h) fun _ _ h => ?_
      cases h
      exact iff_of_true rfl trivial
    | ok p =>
      refine (ends_writeFile_any hcalm.steady hcalm.drawn ht hq).mono fun r v hr => ?_
      cases r with
      | ok => trivial
      | error e => exact iff_of_true (writes_caught hcalm.drawn harrives hq hno hr) trivial

/-- Every run of a request is answered with a documented status exactly if there is no hazard. Which
names the constructor of a payload refuses is a matter of the library. -/
theorem path_faults_answered (refuses : Str → Bool) (maxFileSize : ℕ) (t : Node) (r : FileRequest)
    (ht : t.isDir = true) (harrives : r.Arrives) :
    (∀ w : World, w.root = t → w.env.refuses = refuses → Undisturbed w.env →
      (r.reply maxFileSize w).documented = true) ↔ ¬Hazard refuses maxFileSize t r := by
  constructor
  · intro h hyes
    obtain ⟨digits,hdrawn,hbad⟩ := hazard_undocumented ht harrives hyes
    rw [h _ rfl rfl (undisturbed_calmHost hdrawn refuses)] at hbad
    cases hbad
  · rintro hno w rfl rfl hcalm
    exact documented_of_not_hazard ht harrives hcalm hno

/-- A session with nothing in it. -/
def emptyRoot : Node := .dir ⟨0,Session.dirMode,0,0,0⟩ []

def smallPut : FileRequest := .put (lit "a") (.bytes [0x78])

theorem not_hazard_smallPut (refuses : Str → Bool) : ¬Hazard refuses 1 emptyRoot smallPut := by
  have hq : normalizeSubPath (lit "a") = .ok (lit "a") := by decide
  have hparent : parentOf true emptyRoot (lit "a") = .ok [] := by rfl
  rintro ⟨p,hp,h⟩
  cases hq.symm.trans hp
  rcases h with h | ⟨loc,hloc,h⟩
  · cases hparent.symm.trans h
  cases hparent.symm.trans hloc
  rcases h with hm | ⟨digits,c,_,_,hn⟩ | ⟨_,hname⟩
  · exact hm ⟨rfl,rfl⟩
  · exact hn rfl
  · exact absurd hname (by decide)

theorem path_faults_answered_smallPut : ¬Hazard (fun _ => false) 1 emptyRoot smallPut ∧
    ∀ w : World, w.root = emptyRoot → (w.env.refuses = fun _ => false) → Undisturbed w.env →
      (smallPut.reply 1 w).documented = true := by
  refine ⟨not_hazard_smallPut _,(path_faults_answered (fun _ => false) 1 emptyRoot smallPut rfl
    ?_).mpr (not_hazard_smallPut _)⟩
  intro read hread
  exact ⟨[0x78],List.mem_singleton.mp hread⟩

/-- A GET of a name of 256 characters is answered with a 500. -/
theorem long_name_unanswered : ¬∀ (maxFileSize : ℕ) (t : Node) (r : FileRequest),
    t.isDir = true → r.Arrives → ∀ w : World, w.root = t → Undisturbed w.env →
      (r.reply maxFileSize w).documented = true := by
  intro h
  have hdrawn : Drawable (List.replicate 11 0) := by decide
  have hdocumented := h 0 emptyRoot (.get (List.replicate 256 0x61)) rfl trivial
    (calmWorld (fun _ => false) (List.replicate 11 0) emptyRoot) rfl
    (undisturbed_calmHost hdrawn fun _ => false)
  exact absurd hdocumented (by decide +kernel)

end
end CodeExecutorApi
