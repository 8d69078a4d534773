import CodeExecutorApi.Routes.Files
import CodeExecutorApi.Sessions.Reading
import CodeExecutorApi.Sessions.Writing

/-! What the server answers to each request of the files API, and what the request does to the
session tree. -/
namespace CodeExecutorApi
open Python Posix Machine

/-- The normalised path of a sub_path. The session itself has none. -/
def pathOf (q : Str) : Except InvalidPath Str := if strip q = [] then .ok [] else normalizeSubPath q

/-- The place a sub_path names. -/
def subPlace (q : Str) : Option Loc :=
  match pathOf q with
  | .ok p => if p = [] then some [] else place (split p)
  | .error _ => none

/-- A path that is answered with an internal error: a component that is looked up cannot be a file
name, or a file cannot be served. -/
def refused (refuses : Str → Bool) (t : Node) (q : Str) : Bool :=
  match pathOf q with
  | .ok p =>
    if p = [] then false
    else
      match find t p with
      | .error r => r = .badName
      | .ok n => unreadable refuses p n
  | .error _ => false

def notFound : Reply := .error 404 "File not found"

/-- What there is to answer about an entry. -/
def shown (p : Str) : Option Node → Reply
  | some (.file _ content) => .body content
  | some (.dir _ es) => .listing (listingOf p es)
  | _ => notFound

/-- The answer to a GET, as a function of the tree. -/
def answer (refuses : Str → Bool) (t : Node) (q : Str) : Reply :=
  match pathOf q with
  | .error e => .error 400 e.message
  | .ok p => if refused refuses t q then .internalServerError else shown p ((subPlace q).bind t.get)

theorem pathOf_root {q : Str} (h : strip q = []) : pathOf q = .ok [] := if_pos h

theorem pathOf_ok {q p : Str} (hq : normalizeSubPath q = .ok p) : pathOf q = .ok p := by
  rw [pathOf,if_neg (strip_ne_nil hq),hq]

theorem subPlace_eq {q p : Str} (hq : normalizeSubPath q = .ok p) :
    subPlace q = place (split p) := by
  rw [subPlace,pathOf_ok hq]
  exact if_neg (normalizeSubPath_ne_nil hq)

namespace Session
variable {w : World} {q p : Str}

theorem answer_root (h : strip q = []) : answer w.env.refuses w.root q = shown [] (some w.root) := by
  have hp := pathOf_root h
  unfold answer refused subPlace
  rw [hp]
  rfl

theorem answer_path (hq : normalizeSubPath q = .ok p) :
    answer w.env.refuses w.root q =
      match find w.root p with
      | .error .missing => notFound
      | .error .badName => .internalServerError
      | .ok n => if unreadable w.env.refuses p n then .internalServerError else shown p (some n) := by
  have hp := pathOf_ok hq
  have hne := normalizeSubPath_ne_nil hq
  unfold answer refused subPlace
  simp only [hp,if_neg hne]
  cases hf : find w.root p with
  | error r =>
    cases r with
    | badName => rfl
    | missing =>
      rw [if_neg (by simp)]
      cases hloc : place (split p) with
      | none => rfl
      | some loc =>
        rw [Option.bind_some,find_missing hf hloc]
        rfl
  | ok n =>
    obtain ⟨loc,hloc,hn⟩ := find_ok hf
    dsimp only
    rw [hloc,Option.bind_some,hn]

/-- A refusal is no answer that the handler knows. -/
theorem answerTo_refusal {e : Exc AppError} (h : Refusal e ∨ e = .valueError) :
    answerTo e = .internalServerError := by
  rcases h with ((rfl | rfl) | rfl) | rfl <;> rfl

/-- What reading or else listing a path ends with. -/
def Answered (q : Str) (w : World) : Except (Exc AppError) Response → World → Prop
  | .ok (.content payload),v => Still w v ∧ ∃ a content loc,
      answer w.env.refuses w.root q = .body content ∧ v.Has payload.fd loc ∧ v.root.get loc = some (.file a content)
  | .ok (.json listing),v => Still w v ∧ .listing listing = answer w.env.refuses w.root q
  | .ok _,_ => False
  | .error e,v => Still w v ∧ ((Refusal e ∨ e = .valueError) ∧
      answer w.env.refuses w.root q = .internalServerError ∨ (∃ errno, e = .os .fileNotFound errno) ∧ answer w.env.refuses w.root q = notFound)

/-- What reading ends with, where a directory is still to be listed. -/
def AnsweredFile (q p : Str) (w : World) : Except (Exc AppError) Response → World → Prop
  | .error (.os .isADirectory _),v => Still w v ∧ ∃ a es, find w.root p = .ok (.dir a es)
  | r,v => Answered q w r v

theorem ends_readOrList (henv : w.env.Reliable) (ht : Traversable w.root)
    (hq : normalizeSubPath q = .ok p) :
    (Program.handle
      (do
        let content ← readFile rootDirectory q none
        return .content content)
      fun exc =>
        match exc with
        | .os .isADirectory _ => do
          let listing ← listDirectory rootDirectory q
          return .json listing
        | exc => .raise exc : Api Response).Ends w (Answered q w) := by
  have hanswer := @answer_path w q p hq
  have hfound {n : Node} (hf : find w.root p = .ok n) (hun : unreadable w.env.refuses p n = false) :
      answer w.env.refuses w.root q = shown p (some n) := by
    rw [hanswer,hf]
    simp only [hun,Bool.false_eq_true,if_false]
  refine Program.Ends.handle (R := AnsweredFile q p w) ?_ (fun _ v h => h) fun e v h => ?_
  · refine Program.Ends.bind (R := fun r v => AnsweredFile q p w (r.map .content) v) ?_
      (fun _ v h => h) fun e v h => ?_
    · refine ends_readFile henv ht hq ?_ ?_ ?_ ?_ ?_
      · intro r e v hf he hv
        cases r with
        | missing =>
          obtain ⟨errno,rfl⟩ := he
          exact ⟨hv,.inr ⟨⟨errno,rfl⟩,by rw [hanswer,hf]⟩⟩
        | badName =>
          have h : Answered q w (.error e) v := ⟨hv,.inl ⟨.inl (.inl he),by rw [hanswer,hf]⟩⟩
          rcases he with rfl | rfl <;> exact h
      · intro n errno v hf hreg hdir hun hv
        refine ⟨hv,.inr ⟨⟨errno,rfl⟩,?_⟩⟩
        rw [hfound hf hun]
        cases n with
        | file => exact absurd rfl hreg
        | dir => exact absurd rfl hdir
        | symlink | special => rfl
      · intro n e v hf hun he hv
        have h : Answered q w (.error e) v := by
          refine ⟨hv,.inl ⟨he,?_⟩⟩
          rw [hanswer,hf]
          simp only [hun,if_true]
        rcases he with ((rfl | rfl) | rfl) | rfl <;> exact h
      · intro n v hf hdir hv
        cases n with
        | dir a es => exact ⟨hv,a,es,hf⟩
        | file | symlink | special => cases hdir
      · intro n loc fd header v hf hreg hun hv hhas hget
        cases n with
        | file a content => exact ⟨hv,a,content,loc,hfound hf hun,hhas,hget⟩
        | dir | symlink | special => cases hreg
    · cases e with
      | os cls errno => cases cls <;> exact h
      | valueError | unicodeEncodeError | cancelled | app => exact h
  · have hlist (a : Attr) (es : List (Name × Node)) (hv : Still w v)
        (hf : find w.root p = .ok (.dir a es)) :
        (listDirectory rootDirectory q >>= fun listing => pure (.json listing) : Api Response).Ends v
          (Answered q w) := by
      refine Program.Ends.bind (R := fun r u => r = .ok (listingOf p es) ∧ Still v u) ?_ ?_
        fun _ _ h => (nomatch h.1)
      · exact ends_listDirectory (hv.keeps.env ▸ henv) (hv.root ▸ ht) hq (hv.root ▸ hf)
          fun u hu => ⟨rfl,hu⟩
      · rintro _ u ⟨⟨⟩,hu⟩
        refine ⟨⟨hu.root.trans hv.root,hv.keeps.step hu.keeps⟩,?_⟩
        exact (hfound hf rfl).symm
    cases e with
    | os cls errno =>
      cases cls with
      | isADirectory =>
        obtain ⟨hv,a,es,hf⟩ := h
        exact hlist a es hv hf
      | osError | fileNotFound | fileExists | notADirectory | permission => exact h
    | valueError | unicodeEncodeError | cancelled | app => exact h

/-- The answer to a GET is a function of the tree, which stays as it is. -/
theorem serve_get (henv : w.env.Reliable) (ht : Traversable w.root) :
    (serve (handleGetFile rootDirectory q) w).1 = answer w.env.refuses w.root q ∧
      (serve (handleGetFile rootDirectory q) w).2.root = w.root ∧
      (serve (handleGetFile rootDirectory q) w).2.env = w.env := by
  refine serve_eq (Q := fun reply v => reply = answer w.env.refuses w.root q ∧ v.root = w.root ∧
    v.env = w.env) ?_
  unfold handleGetFile
  by_cases hroot : strip q = []
  · obtain ⟨a,es,hw⟩ := Node.eq_dir ht.root
    rw [if_pos hroot]
    refine Program.Ends.handle (R := fun r v => r = .ok (.json (listingOf [] es)) ∧ Still w v) ?_ ?_
      fun _ _ h => (nomatch h.1)
    · refine Program.Ends.bind (R := fun r v => r = .ok (listingOf [] es) ∧ Still w v) ?_ ?_
        fun _ _ h => (nomatch h.1)
      · exact ends_listDirectory_root henv ht hroot hw fun v hv => ⟨rfl,hv⟩
      · rintro _ v ⟨⟨⟩,hv⟩
        exact ⟨rfl,hv⟩
    · rintro _ v ⟨⟨⟩,hv⟩
      refine ⟨_,rfl,?_,hv.root,hv.keeps.env⟩
      rw [answer_root hroot,hw]
      rfl
  rw [if_neg hroot]
  cases hq : normalizeSubPath q with
  | error e =>
    have hread : (readFile rootDirectory q none).Ends w fun r v =>
        r = .error (.app (.validationError e)) ∧ v = w := by
      unfold readFile normalize
      rw [hq]
      exact ⟨rfl,rfl⟩
    refine Program.Ends.handle (R := fun r v => r = .error (.app (.validationError e)) ∧ v = w) ?_
      (fun _ _ h => (nomatch h.1)) ?_
    · refine Program.Ends.handle (R := fun r v => r = .error (.app (.validationError e)) ∧ v = w)
        (hread.bind (fun _ _ h => (nomatch h.1)) ?_) (fun _ _ h => h) ?_
      · rintro _ v ⟨⟨⟩,hv⟩
        exact ⟨rfl,hv⟩
      · rintro _ v ⟨⟨⟩,hv⟩
        exact ⟨rfl,hv⟩
    · rintro _ v ⟨⟨⟩,rfl⟩
      refine ⟨?_,rfl,rfl⟩
      unfold answer pathOf
      rw [if_neg hroot,hq]
      rfl
  | ok p =>
    have hanswer := @answer_path w q p hq
    refine Program.Ends.handle (R := Answered q w) (ends_readOrList henv ht hq) ?_ ?_
    · intro response v h
      cases response with
      | json listing => exact ⟨_,rfl,h.2,h.1.root,h.1.keeps.env⟩
      | content payload =>
        obtain ⟨hv,a,content,loc,hanswer,hhas,hget⟩ := h
        refine Program.Ends.ensure (R := fun r u => r = .ok (.body content) ∧ u = v) ?_ ?_
        · refine Program.Ends.bind (R := fun r u => r = .ok content ∧ u = v) ?_ ?_
            fun _ _ h => (nomatch h.1)
          · exact Os.ends_read hhas hget ⟨rfl,rfl⟩
          · rintro _ u ⟨⟨⟩,rfl⟩
            exact ⟨rfl,rfl⟩
        · rintro _ u ⟨rfl,rfl⟩
          refine Os.ends_close_reliable (hv.keeps.env ▸ henv) hhas fun x hx => ⟨rfl,_,rfl,hanswer.symm,?_⟩
          exact ⟨hx.root.trans hv.root,hx.env.trans hv.keeps.env⟩
      | noContent => cases h
      | error => cases h
    · rintro e v ⟨hv,⟨he,hanswer⟩ | ⟨⟨errno,rfl⟩,hanswer⟩⟩
      · have hraise : answerTo e = answer w.env.refuses w.root q ∧ v.root = w.root ∧ v.env = w.env :=
          ⟨(answerTo_refusal he).trans hanswer.symm,hv.root,hv.keeps.env⟩
        rcases he with ((rfl | rfl) | rfl) | rfl <;> exact hraise
      · exact ⟨_,rfl,hanswer.symm,hv.root,hv.keeps.env⟩

end Session

/-- What a request does to the tree, and whether it succeeds. -/
inductive Effect : FileRequest → Bool → Node → Node → Prop
  | unchanged {r t} : Effect r false t t
  | grown {q content p t t'} (path : normalizeSubPath q = .ok p)
      (grown : Grown Session.dirMode (way (split p).dropLast) t t') :
      Effect (.put q content) false t t'
  | put {q content p loc c b t t₁ t'} (path : normalizeSubPath q = .ok p)
      (place : place (split p) = some (loc ++ [c])) (grown : Grown Session.dirMode loc t t₁)
      (mode : b.mode = tempMode) (old : ∀ m, t₁.get (loc ++ [c]) = some m → m.isDir = false)
      (linked : Relinked loc c (some (.file b content.body)) t₁ t') :
      Effect (.put q content) true t t'
  | delete {q p loc c n t t'} (path : normalizeSubPath q = .ok p)
      (place : place (split p) = some (loc ++ [c])) (old : t.get (loc ++ [c]) = some n)
      (file : n.isDir = false) (unlinked : Relinked loc c none t t') :
      Effect (.delete q) true t t'

namespace Session
variable {w : World} {q p : Str}

/-- A handler that failed does not answer 204. -/
def Failed (P : World → Prop) : Except (Exc AppError) Response → World → Prop
  | .ok (.error ..),v => P v
  | .ok _,_ => False
  | .error _,v => P v

theorem answerTo_ne_noContent (e : Exc AppError) : answerTo e ≠ .noContent := by
  cases e with
  | app e => cases e <;> exact nofun
  | os | valueError | unicodeEncodeError | cancelled => exact nofun

/-- From how a handler ends to what the server answers. -/
theorem serve_done {handler : Api Response} {P R : World → Prop}
    (h : handler.Ends w fun r v => r = .ok .noContent ∧ P v ∨ Failed R r v) :
    (serve handler w).1 = .noContent ∧ P (serve handler w).2 ∨
      (serve handler w).1 ≠ .noContent ∧ R (serve handler w).2 := by
  refine serve_eq (Q := fun reply v => reply = .noContent ∧ P v ∨ reply ≠ .noContent ∧ R v)
    (h.mono fun r v hr => ?_)
  rcases hr with ⟨rfl,hp⟩ | hr
  · exact ⟨_,rfl,.inl ⟨rfl,hp⟩⟩
  · cases r with
    | error e => exact .inr ⟨answerTo_ne_noContent e,hr⟩
    | ok response =>
      cases response with
      | error => exact ⟨_,rfl,.inr ⟨nofun,hr⟩⟩
      | json | content | noContent => cases hr

theorem ends_handlePutFile {maxFileSize : ℕ} {content : Content} {P R : World → Prop}
    (h : (writeFile rootDirectory maxFileSize q content).Ends w fun r v =>
      match r with
      | .ok () => P v
      | .error _ => R v) :
    (handlePutFile rootDirectory maxFileSize q content).Ends w fun r v =>
      r = .ok .noContent ∧ P v ∨ Failed R r v := by
  refine Program.Ends.handle (R := fun r v => r = .ok .noContent ∧ P v ∨ Failed R r v) ?_
    (fun _ v h => h) fun e v h => ?_
  · refine Program.Ends.handle (R := fun r v => match r with
      | .error _ => R v
      | .ok response => response = .noContent ∧ P v) ?_ (fun _ v h => .inl ⟨congrArg _ h.1,h.2⟩) fun e v h => ?_
    · exact h.bind (fun _ v h => ⟨rfl,h⟩) fun _ v h => h
    · have hfail : Failed R (.error e) v := h
      cases e with
      | os cls errno => cases cls <;> exact .inr h
      | valueError | unicodeEncodeError | cancelled | app => exact .inr h
  · have hfail : R v := h.elim (fun h => (nomatch h.1)) fun h => h
    cases e with
    | app e => cases e <;> exact .inr hfail
    | os | valueError | unicodeEncodeError | cancelled => exact .inr hfail

theorem ends_handleDeleteFile {P R : World → Prop}
    (h : (deleteFile rootDirectory q).Ends w fun r v =>
      match r with
      | .ok () => P v
      | .error _ => R v) :
    (handleDeleteFile rootDirectory q).Ends w fun r v =>
      r = .ok .noContent ∧ P v ∨ Failed R r v := by
  refine Program.Ends.handle (R := fun r v => match r with
    | .error _ => R v
    | .ok response => response = .noContent ∧ P v) ?_ (fun _ v h => .inl ⟨congrArg _ h.1,h.2⟩) fun e v h => ?_
  · exact h.bind (fun _ v h => ⟨rfl,h⟩) fun _ v h => h
  · cases e with
    | os cls errno => cases cls <;> exact .inr h
    | valueError | unicodeEncodeError | cancelled | app => exact .inr h

end Session

section
open Session
variable {w : World}

def FileRequest.reply (maxFileSize : ℕ) (r : FileRequest) (w : World) : Reply :=
  (serve (r.handler maxFileSize rootDirectory) w).1

def FileRequest.next (maxFileSize : ℕ) (r : FileRequest) (w : World) : World :=
  (serve (r.handler maxFileSize rootDirectory) w).2

theorem answer_ne_noContent (refuses : Str → Bool) (t : Node) (q : Str) :
    answer refuses t q ≠ .noContent := by
  unfold answer
  split
  · exact nofun
  · split
    · exact nofun
    · unfold shown
      split <;> exact nofun

/-- The request leaves a temporary file that has no owner any more. -/
def FileRequest.Leaks (r : FileRequest) (w : World) : Prop :=
  ∃ q content, r = .put q content ∧ HandoverLeaks q w

/-- A request succeeds if it is answered with 204. -/
theorem request_effect (maxFileSize : ℕ) (r : FileRequest) (henv : w.env.Reliable)
    (hkept : ¬r.Leaks w) (ht : Traversable w.root) :
    Effect r (r.reply maxFileSize w = .noContent) w.root (r.next maxFileSize w).root ∧
      (r.next maxFileSize w).env = w.env := by
  have hdone {P : Bool → World → Prop} (h : r.reply maxFileSize w = .noContent ∧
      P true (r.next maxFileSize w) ∨ r.reply maxFileSize w ≠ .noContent ∧
      P false (r.next maxFileSize w)) :
      P (r.reply maxFileSize w = .noContent) (r.next maxFileSize w) := by
    rcases h with ⟨h,hp⟩ | ⟨h,hp⟩
    · rwa [decide_eq_true h]
    · rwa [decide_eq_false h]
  refine hdone (P := fun done v => Effect r done w.root v.root ∧ v.env = w.env) ?_
  cases r with
  | get q =>
    obtain ⟨hreply,hroot,henv'⟩ := serve_get (q := q) henv ht
    refine .inr ⟨fun h => answer_ne_noContent _ w.root q (hreply.symm.trans h),?_,henv'⟩
    change Effect _ _ _ (serve (handleGetFile rootDirectory q) w).2.root
    rw [hroot]
    exact .unchanged
  | put q content =>
    refine serve_done (P := fun v => Effect (.put q content) true w.root v.root ∧ v.env = w.env)
      (R := fun v => Effect (.put q content) false w.root v.root ∧ v.env = w.env) ?_
    refine ends_handlePutFile ?_
    cases hq : normalizeSubPath q with
    | error e =>
      unfold writeFile stageFile Session.normalize
      rw [hq]
      exact ⟨.unchanged,rfl⟩
    | ok p =>
      refine ends_writeFile henv (fun h => hkept ⟨q,content,rfl,h⟩) hq
        (fun e v hg hk => ⟨.grown hq hg,hk.env⟩) ?_
      intro loc c b t v hplace hg hmode hold hrel hk
      exact ⟨.put hq hplace hg hmode hold hrel,hk.env⟩
  | delete q =>
    refine serve_done (P := fun v => Effect (.delete q) true w.root v.root ∧ v.env = w.env)
      (R := fun v => Effect (.delete q) false w.root v.root ∧ v.env = w.env) ?_
    refine ends_handleDeleteFile ?_
    cases hq : normalizeSubPath q with
    | error e =>
      unfold deleteFile Session.normalize
      rw [hq]
      exact ⟨.unchanged,rfl⟩
    | ok p =>
      refine ends_deleteFile henv ht hq (fun e v hroot hk => ⟨?_,hk.env⟩) ?_
      · rw [hroot]
        exact .unchanged
      · intro loc c n v hplace hn hfile hrel hk
        exact ⟨.delete hq hplace hn hfile hrel,hk.env⟩

end
end CodeExecutorApi
