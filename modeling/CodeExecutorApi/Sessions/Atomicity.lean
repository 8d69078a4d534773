import CodeExecutorApi.Sessions.Writing

/-! Whether a write either takes place or leaves no trace but directories. -/
namespace CodeExecutorApi
open Python Posix Machine

/-- The call of this number fails for a reason that the tree does not give, or the task is cancelled
there. -/
def Fails (env : Environment) (n : ℕ) : Prop :=
  (∃ call, env.fault call n ≠ none) ∨ env.interrupt n = true

namespace Session
variable {w : World} {maxFileSize : ℕ} {q p name : Str} {content : Content} {loc : Loc} {fd : ℕ}
  {u v v' : World}

/-- `write_file` is atomic: its body is at the path, or everything but directories is as before. -/
structure WritesAtomically (maxFileSize : ℕ) (q : Str) (content : Content) (w : World) : Prop where
  ends : (writeFile rootDirectory maxFileSize q content).Ends w fun r v =>
    match r with
    | .ok () => content.body.length ≤ maxFileSize ∧ ∃ p loc b, normalizeSubPath q = .ok p ∧
        place (split p) = some loc ∧
        v.root.leaf = Function.update w.root.leaf loc (some (.file b content.body))
    | .error _ => v.root.leaf = w.root.leaf

theorem WritesAtomically.error {e : Exc AppError} (h : WritesAtomically maxFileSize q content w)
    (hrun : writeFile rootDirectory maxFileSize q content w = (.error e,v)) :
    v.root.leaf = w.root.leaf :=
  (Program.ends_of_run hrun).mp h.ends

/-- The temporary file is written, and the directory it is in cannot be closed. -/
def ClosingLeaks (maxFileSize : ℕ) (q : Str) (content : Content) (w : World) : Prop :=
  ∃ p fd name loc u v, normalizeSubPath q = .ok p ∧
    Uploads maxFileSize p content w fd name loc u v ∧ v.env.fault .close v.calls ≠ none

/-- Staging fails and leaves the temporary file: no file object took over its descriptor, which
cannot be closed, or it is written and its directory cannot be closed. -/
def StagingLeaks (maxFileSize : ℕ) (q : Str) (content : Content) (w : World) : Prop :=
  HandoverLeaks q w ∨ ClosingLeaks maxFileSize q content w

/-- The temporary file got its name, which it did not have by chance before, and the directory cannot
be closed. It is another file than the one that had the name. -/
def CommitLeaks (maxFileSize : ℕ) (q : Str) (content : Content) (w : World) : Prop :=
  ∃ p fd name loc u v v' c d n fd' u' x, normalizeSubPath q = .ok p ∧
    Stages maxFileSize q p content w fd name loc u v v' ∧ nameOf name = some c ∧ c ≠ d ∧
    Reveals p name loc c d n v' fd' u' x ∧ x.env.fault .close x.calls ≠ none ∧
    w.root.leaf (loc ++ [d]) ≠ some n

/-- Staging made nothing visible but the temporary file. -/
theorem Uploads.leaf (h : Uploads maxFileSize p content w fd name loc u v) :
    ∃ c b, nameOf name = some c ∧ w.root.leaf (loc ++ [c]) = none ∧
      v.root.leaf = Function.update w.root.leaf (loc ++ [c]) (some (.file b content.body)) := by
  obtain ⟨c,a,es,b,hc,hdir,_,hnone,_,hrel⟩ := h.temporary.file
  have hnone' : u.root.get (loc ++ [c]) = none := by rw [Node.get_entry hdir,hnone]
  refine ⟨c,b,hc,?_,?_⟩
  · rw [← h.grown.leaf]
    exact Node.leaf_of_none hnone'
  · rw [← h.grown.leaf]
    refine hrel.leaf (fun n hn => ?_) fun n hn => ?_
    · rw [hnone'] at hn
      cases hn
    · cases hn
      rfl

/-- After a commit the body is at the path, and the temporary file is gone. -/
theorem Stages.leaf {c d : Name} {n : Node} {fd' : ℕ} {u' x : World}
    (h : Stages maxFileSize q p content w fd name loc u v v') (hc : nameOf name = some c)
    (hrev : Reveals p name loc c d n v' fd' u' x) :
    ∃ b, n = .file b content.body ∧
      x.root.leaf = Function.update w.root.leaf (loc ++ [d]) (some n) := by
  obtain ⟨b,_,hn,hrel,hold⟩ := h.temporary.renamed hc (h.root ▸ hrev.renamed)
  refine ⟨b,hn,?_⟩
  rw [← h.grown.leaf]
  refine hrel.leaf hold fun m hm => ?_
  cases hm
  rw [hn]
  rfl

variable (fd) in
theorem close_fails (h : v.env.fault .close v.calls ≠ none) :
    ∃ e, (Os.close fd : Api Unit) v = (.error e,(v.close fd).tick) := by
  obtain ⟨errno,herrno⟩ := Option.ne_none_iff_exists'.mp h
  refine ⟨Os.oserror errno,?_⟩
  unfold Os.close
  rw [herrno]

/-- The `with` block of `stage_file` when the directory cannot be closed. -/
theorem openParent_leaks (h : Uploads maxFileSize p content w fd name loc u v)
    (hclose : v.env.fault .close v.calls ≠ none) :
    ∃ e, openParent rootDirectory p true (fun parentFd _ => do
      let (temporaryName,_) ← writeFileToTemp parentFd content maxFileSize
      return temporaryName) w = (.error e,(v.close fd).tick) := by
  obtain ⟨e,he⟩ := close_fails fd hclose
  rw [openParent_eq fun _ => rfl]
  exact ⟨e,(Program.bind_run h.entered).trans
    (Program.ensure_run_error (Program.bind_run h.wrote) he)⟩

/-- What `stage_file` does when the directory cannot be closed. -/
theorem stageFile_leaks (hq : normalizeSubPath q = .ok p)
    (h : Uploads maxFileSize p content w fd name loc u v) (hclose : v.env.fault .close v.calls ≠ none) :
    ∃ e, stageFile rootDirectory maxFileSize q content w = (.error e,(v.close fd).tick) := by
  obtain ⟨e,hparent⟩ := openParent_leaks h hclose
  unfold stageFile
  rw [normalize_eq hq,Program.pure_bind]
  refine Exists.imp (fun e' he' => Program.bind_run_error he') ?_
  rw [Program.handle_run_error hparent]
  split
  · exact ⟨_,rfl⟩
  · exact ⟨_,rfl⟩
  · exact ⟨_,rfl⟩
  · exact ⟨_,rfl⟩

/-- A temporary file is seen. -/
theorem Litters.leaf (h : Litters p w v) : v.root.leaf ≠ w.root.leaf := by
  obtain ⟨loc,t,_,hg,_,c,b,body,_,hnone,hrel⟩ := h
  intro hsame
  have hfile : v.root.leaf (loc ++ [c]) = some (.file b body) :=
    Node.leaf_eq_some.mpr ⟨hrel.get_entry [],rfl⟩
  rw [hsame,← hg.leaf,Node.leaf_of_none hnone] at hfile
  cases hfile

/-- A new session, on a host where of all calls only the given one may fail. -/
def sessionFailing (call : Call) (n : ℕ) (errno : Option Errno) : World where
  env := ⟨40,fun c k => if c = call ∧ k = n then errno else none,fun n => n,fun n => n,fun n => n,
    fun _ => [1],fun _ => false,fun _ => false,fun _ => false⟩
  root := .dir ⟨0,dirMode,0,0,0⟩ []
  fds := []
  nextFd := 3
  calls := 0

theorem fault_sessionFailing {call c : Call} {n k : ℕ} {errno : Option Errno} (h : c ≠ call) :
    (sessionFailing call n errno).env.fault c k = none := if_neg fun h' => h h'.1

theorem not_leaks (hfreed : ∀ n, w.env.freed n = false) (h : ∀ n, w.env.fault .close n = none) :
    ¬StagingLeaks maxFileSize q content w ∧ ¬CommitLeaks maxFileSize q content w := by
  have hclose {x : World} (hx : w.Keeps w.nextFd x) : x.env.fault .close x.calls = none := by
    rw [hx.env]
    exact h _
  constructor
  · rintro (hleak | ⟨p,fd,name,loc,u,v,_,hup,hno⟩)
    · exact not_handoverLeaks hfreed h hleak
    · exact hno (hclose hup.keeps)
  · rintro ⟨p,fd,name,loc,u,v,v',c,d,n,fd',u',x,_,hst,_,_,hrev,hno,_⟩
    exact hno (hclose (hst.keepsAll.step hrev.keeps))

/-- A session that has a file already, where the write of the given number finds no space. -/
def fullSession (n : ℕ) : World :=
  {sessionFailing .write n (some .enospc) with
    root := .dir ⟨0,dirMode,0,0,0⟩ [(⟨[0x61],by decide⟩,.file ⟨1,tempMode,0,0,0⟩ [7])]}

end Session
end CodeExecutorApi
