import CodeExecutorApi.Python.Steady
import CodeExecutorApi.Sessions.Descent
import CodeExecutorApi.Sessions.Reading

/-! How the walk of `_open_parent` ends, in a tree with any permission bits and on a host where only
the storage may run out. -/
namespace CodeExecutorApi
open Python Posix Machine

/-- Why an operation on a path fails: nothing of use is there, or the kernel does not let the server
look for it. -/
inductive Barrier
  | missing
  | refused
  deriving DecidableEq, Repr

def Barrier.Raises : Barrier → Exc AppError → Prop
  | .missing, e => e = Os.oserror .enoent ∨ e = .os .fileNotFound none
  | .refused, e => Refusal e

/-- The exceptions of a full storage, if calls fail in this environment. -/
def IsFull (env : Environment) (e : Exc AppError) : Prop :=
  (∃ call n, env.fault call n ≠ none) ∧ (e = Os.oserror .enospc ∨ e = Os.oserror .edquot)

/-- Where a walk from `loc` ends. In a new directory everything can be made that has a name. -/
def enterFrom (createDir : Bool) (t : Node) : Loc → List Str → Except Barrier Loc
  | loc, [] => .ok loc
  | loc, s :: ss =>
    match t.get loc, nameOf s with
    | some (.dir a _), some c =>
      if a.mode.search = false then .error .refused
      else
        match t.get (loc ++ [c]) with
        | some (.dir b _) =>
          if b.mode.read = false then .error .refused else enterFrom createDir t (loc ++ [c]) ss
        | some _ => .error .missing
        | none =>
          if createDir = false then .error .missing
          else if a.mode.write = false then .error .refused
          else
            match place ss with
            | some p => .ok (loc ++ c :: p)
            | none => .error .refused
    | _, _ => .error .refused

/-- Where the walk to the parent of a path ends. -/
def parentOf (createDir : Bool) (t : Node) (p : Str) : Except Barrier Loc :=
  if t.attr.mode.read = false then .error .refused
  else enterFrom createDir t [] (split p).dropLast

section Walk
variable {createDir : Bool} {t : Node} {loc : Loc} {a b : Attr} {es bs : List (Name × Node)}
  {s : Str} {ss : List Str} {c : Name}

theorem enterFrom_unnamed (h : nameOf s = none) :
    enterFrom createDir t loc (s :: ss) = .error .refused := by
  rw [enterFrom,h]
  split
  · rename_i heq
    cases heq
  · rfl

theorem enterFrom_cons (hdir : t.get loc = some (.dir a es)) (hc : nameOf s = some c) :
    enterFrom createDir t loc (s :: ss) =
      if a.mode.search = false then .error .refused
      else
        match t.get (loc ++ [c]) with
        | some (.dir b _) =>
          if b.mode.read = false then .error .refused else enterFrom createDir t (loc ++ [c]) ss
        | some _ => .error .missing
        | none =>
          if createDir = false then .error .missing
          else if a.mode.write = false then .error .refused
          else
            match place ss with
            | some p => .ok (loc ++ c :: p)
            | none => .error .refused := by
  rw [enterFrom,hdir,hc]

theorem enterFrom_new (hdir : t.get loc = some (.dir a [])) (hmode : a.mode = Session.dirMode) :
    enterFrom true t loc ss =
      match place ss with
      | some p => .ok (loc ++ p)
      | none => .error .refused := by
  cases ss with
  | nil =>
    simp only [enterFrom,place,List.append_nil]
  | cons s ss =>
    cases hc : nameOf s with
    | none =>
      rw [enterFrom_unnamed hc,place,hc]
      rfl
    | some c =>
      have hnone : t.get (loc ++ [c]) = none := Node.get_entry hdir c
      rw [enterFrom_cons hdir hc,hnone,hmode,place,hc]
      cases place ss <;> rfl

end Walk

namespace Session
variable {createDir : Bool} {w : World} {fd : ℕ} {loc : Loc} {a : Attr} {es : List (Name × Node)}
  {s : Str}

/-- A call that stores nothing fails only as the tree says. -/
theorem not_faulted {ε : Type} {call : Call} {e : Exc ε} (henv : w.env.Steady)
    (hcall : call ∉ [Call.create,.write,.mkdir,.rename]) : ¬Os.Faulted call w e := by
  rintro ⟨errno,herrno,_⟩
  rw [henv.reliable call _ hcall] at herrno
  cases herrno

theorem isFull_of_faulted {call : Call} {e : Exc AppError} (henv : w.env.Steady)
    (h : Os.Faulted call w e) : IsFull w.env e := by
  obtain ⟨errno,herrno,rfl⟩ := h
  refine ⟨⟨call,w.calls,by simp [herrno]⟩,?_⟩
  rcases henv.full _ _ _ herrno with rfl | rfl
  · exact .inl rfl
  · exact .inr rfl

theorem mapped_refusal {errnos : List Errno} {cls : OSErrorClass} {e : Exc AppError}
    (h : Refusal e) (hlong : .enametoolong ∉ errnos) (haccess : .eacces ∉ errnos) :
    mapped errnos cls e = e := by
  rcases h with h | rfl
  · exact mapped_badName h hlong
  · exact if_neg haccess

variable (createDir) in
/-- The next directory is opened, or the exception says what is in the way. -/
theorem ends_openStep {cls : OSErrorClass} {Q : Except (Exc AppError) ℕ → World → Prop}
    (henv : w.env.Steady) (hs : Component s) (hfd : w.Has fd loc)
    (hdir : w.root.get loc = some (.dir a es))
    (hrefused : (∀ ss, enterFrom createDir w.root loc (s :: ss) = .error .refused) →
      ∀ e v, w.Quiet v → Refusal e → Q (.error e) v)
    (hmissing : ∀ c, nameOf s = some c → a.mode.search = true →
      (∀ b bs, w.root.get (loc ++ [c]) ≠ some (.dir b bs)) → ∀ e v, w.Quiet v →
      (w.root.get (loc ++ [c]) = none ∧ e = Os.oserror .enoent ∨ e = .os cls none) →
      Q (.error e) v)
    (hok : ∀ c v, nameOf s = some c → a.mode.search = true →
      (∃ b bs, w.root.get (loc ++ [c]) = some (.dir b bs) ∧ b.mode.read = true) →
      w.Opened (loc ++ [c]) v → v.root = w.root → Q (.ok w.nextFd) v) :
    (mapErrno [.eloop,.enotdir] cls (Os.open_ s dirFlags dirMode (some fd))).Ends w Q := by
  have hbad (hno : nameOf s = none ∨ a.mode.search = false) (ss : List Str) :
      enterFrom createDir w.root loc (s :: ss) = .error .refused := by
    cases hc : nameOf s with
    | none => exact enterFrom_unnamed hc
    | some c =>
      rw [enterFrom_cons hdir hc,if_pos (hno.resolve_left fun h => by rw [hc] at h; cases h)]
  refine ends_mapErrno (Os.ends_lookup hs hfd hdir (fun hno e v hv he => ?_) fun c hc hsearch => ?_)
  · have hrefusal : Refusal e :=
      he.resolve_right (not_faulted henv (by decide))
    change Q (.error (mapped _ cls e)) v
    rw [mapped_refusal hrefusal (by decide) (by decide)]
    exact hrefused (hbad hno) e v hv hrefusal
  have hget := Node.get_entry hdir c
  refine Os.ends_reliable henv.reliable (by decide) (fun e he => ?_) fun m v hv => ?_
  · have hquiet := World.quiet_tick w
    rw [World.openLoc] at he
    cases hn : w.root.get (loc ++ [c]) with
    | none =>
      rw [hn] at he
      cases he
      exact hmissing c hc hsearch (fun b bs h => by rw [hn] at h; cases h) _ _ hquiet
        (.inl ⟨hn,rfl⟩)
    | some n =>
      rw [hn] at he
      cases n with
      | dir b bs =>
        change (Except.map _ (if b.mode.read = true then Except.ok () else .error Errno.eacces)) =
          _ at he
        by_cases hread : b.mode.read = true
        · rw [if_pos hread] at he
          cases he
        · rw [if_neg hread] at he
          cases he
          refine hrefused (fun ss => ?_) _ _ hquiet (.inr rfl)
          rw [enterFrom_cons hdir hc,if_neg (by simp [hsearch]),hn]
          exact if_pos (Bool.not_eq_true _ ▸ hread)
      | file | symlink | special =>
        cases he
        exact hmissing c hc hsearch (fun b bs h => by rw [hn] at h; cases h) _ _ hquiet (.inr rfl)
  · rw [World.openLoc] at hv
    cases hn : w.root.get (loc ++ [c]) with
    | none =>
      rw [hn] at hv
      cases hv
    | some n =>
      rw [hn] at hv
      cases n with
      | dir b bs =>
        change (Except.map _ (if b.mode.read = true then Except.ok () else .error Errno.eacces)) =
          _ at hv
        by_cases hread : b.mode.read = true
        · rw [if_pos hread] at hv
          cases hv
          exact hok c _ hc hsearch ⟨b,bs,hn,hread⟩ (World.opened_alloc w _) rfl
        · rw [if_neg hread] at hv
          cases hv
      | file | symlink | special => cases hv

/-- The directory is there, or it is made, or the exception says what is in the way. -/
theorem ends_mkdirStep {Q : Except (Exc AppError) Unit → World → Prop} (henv : w.env.Steady)
    (hs : Component s) (hfd : w.Has fd loc) (hdir : w.root.get loc = some (.dir a es))
    (hrefused : (∀ ss, enterFrom true w.root loc (s :: ss) = .error .refused) →
      ∀ e v, w.Quiet v → Refusal e → Q (.error e) v)
    (hfull : ∀ e v, w.Quiet v → IsFull w.env e → Q (.error e) v)
    (hthere : ∀ c v, nameOf s = some c → w.root.get (loc ++ [c]) ≠ none → w.Quiet v →
      Q (.ok ()) v)
    (hmade : ∀ c b v, nameOf s = some c → a.mode.search = true → a.mode.write = true →
      w.root.get (loc ++ [c]) = none → b.mode = dirMode →
      w.Relinks loc c (some (.dir b [])) v → Q (.ok ()) v) :
    (mkdirIfMissing s fd).Ends w Q := by
  have hbad (hno : nameOf s = none ∨ a.mode.search = false) (ss : List Str) :
      enterFrom true w.root loc (s :: ss) = .error .refused := by
    cases hc : nameOf s with
    | none => exact enterFrom_unnamed hc
    | some c =>
      rw [enterFrom_cons hdir hc,if_pos (hno.resolve_left fun h => by rw [hc] at h; cases h)]
  refine Program.Ends.handle (R := fun r v => match r with
    | .error e => (∃ c, e = Os.oserror .eexist ∧ nameOf s = some c ∧
        w.root.get (loc ++ [c]) ≠ none ∧ w.Quiet v) ∨ (Refusal e ∨ IsFull w.env e) ∧ Q (.error e) v
    | .ok () => Q (.ok ()) v) ?_ (fun _ v h => h) fun e v h => ?_
  · refine Os.ends_lookup hs hfd hdir (fun hno e v hv he => .inr ?_) fun c hc hsearch => ?_
    · rcases he with he | he
      · exact ⟨.inl he,hrefused (hbad hno) e v hv he⟩
      · exact ⟨.inr (isFull_of_faulted henv he),hfull e v hv (isFull_of_faulted henv he)⟩
    have hget := Node.get_entry hdir c
    have hquiet := World.quiet_tick w
    refine Os.ends_syscall (fun e he => .inr ?_) (fun e he => ?_) fun u v hv => ?_
    · have hfull' : IsFull w.env (Os.oserror e) := isFull_of_faulted henv ⟨e,he,rfl⟩
      exact ⟨.inr hfull',hfull _ _ hquiet hfull'⟩
    · rw [World.mkdirLoc,Os.writable_entry hdir] at he
      cases hn : w.root.get (loc ++ [c]) with
      | some n =>
        rw [hn] at he
        cases he
        exact .inl ⟨c,rfl,hc,by simp [hn],hquiet⟩
      | none =>
        rw [hn] at he
        by_cases hwrite : a.mode.write = true
        · rw [if_pos hwrite] at he
          cases he
        · rw [if_neg hwrite] at he
          cases he
          refine .inr ⟨.inl (.inr rfl),hrefused (fun ss => ?_) _ _ hquiet (.inr rfl)⟩
          rw [enterFrom_cons hdir hc,if_neg (by simp [hsearch]),hn]
          exact if_pos (Bool.not_eq_true _ ▸ hwrite)
    · rw [World.mkdirLoc,Os.writable_entry hdir] at hv
      cases hn : w.root.get (loc ++ [c]) with
      | some n =>
        rw [hn] at hv
        cases hv
      | none =>
        rw [hn] at hv
        by_cases hwrite : a.mode.write = true
        · rw [if_pos hwrite] at hv
          cases hv
          refine hmade c _ _ hc hsearch hwrite hn rfl ⟨World.link_relinked hdir _,?_⟩
          exact (World.keeps_link w _ _ _).trans ((World.quiet_tick _).keeps _)
        · rw [if_neg hwrite] at hv
          cases hv
  · rcases h with ⟨c,rfl,hc,hn,hv⟩ | ⟨he,hq⟩
    · exact hthere c v hc hn hv
    · rcases he with ((rfl | rfl) | rfl) | ⟨_,rfl | rfl⟩ <;> exact hq

/-- What a turn of the walk comes to: the rest of the walk ends in the new tree from the next
directory as it would have from `loc`, or the exception says what is in the way. -/
def Stepped (createDir : Bool) (s : Str) (fd : ℕ) (loc : Loc) (w : World) :
    Except (Exc AppError) ℕ → World → Prop
  | .ok fd', v => ∃ c, v.Has fd' (loc ++ [c]) ∧ fd ≤ fd' ∧ w.Keeps fd v ∧
      (∃ a es, v.root.get (loc ++ [c]) = some (.dir a es)) ∧
      ∀ ss, enterFrom createDir w.root loc (s :: ss) = enterFrom createDir v.root (loc ++ [c]) ss
  | .error e, _ => createDir = true ∧ IsFull w.env e ∨
      ∃ b : Barrier, b.Raises e ∧ ∀ ss, enterFrom createDir w.root loc (s :: ss) = .error b

variable (createDir) in
/-- The second half of a turn. Unless it was just made, a missing directory is still missing. -/
theorem ends_step {v : World} {b : Attr} {bs : List (Name × Node)} (henv : w.env.Steady)
    (hs : Component s) (hfd : w.Has fd loc) (hk : w.Keeps w.nextFd v)
    (hdir : v.root.get loc = some (.dir b bs))
    (hsame : ∀ ss, enterFrom createDir w.root loc (s :: ss) =
      enterFrom createDir v.root loc (s :: ss))
    (hmade : createDir = true → ∀ c, nameOf s = some c → v.root.get (loc ++ [c]) ≠ none) :
    (openPart false fd s).Ends v fun r u => Stepped createDir s fd loc w r u ∧
      w.Keeps w.nextFd u ∨ ∃ fd', r = .ok fd' ∧ Stepped createDir s fd loc w r u := by
  have hlt := hfd.lt
  refine Program.Ends.bind (R := fun r u => match r with
    | .error e => v.Quiet u ∧ Stepped createDir s fd loc w (.error e) u
    | .ok fd' => fd' = v.nextFd ∧ ∃ c b' bs', nameOf s = some c ∧ b.mode.search = true ∧
        v.root.get (loc ++ [c]) = some (.dir b' bs') ∧ b'.mode.read = true ∧
        v.Opened (loc ++ [c]) u ∧ u.root = v.root) ?_ ?_ fun e u hu => ?_
  · refine ends_openStep createDir (hk.env ▸ henv) hs (hk.has hfd) hdir
      (fun hno e u hu he => ?_) (fun c hc hsearch hno e u hu he => ?_)
      fun c u hc hsearch hb hu hr => ?_
    · exact ⟨hu,.inr ⟨.refused,he,fun ss => (hsame ss).trans (hno ss)⟩⟩
    · refine ⟨hu,.inr ⟨.missing,?_,fun ss => (hsame ss).trans ?_⟩⟩
      · exact he.imp_left fun h => h.2
      · rw [enterFrom_cons hdir hc,if_neg (by simp [hsearch])]
        cases hn : v.root.get (loc ++ [c]) with
        | none =>
          cases createDir with
          | false => rfl
          | true => exact absurd hn (hmade rfl c hc)
        | some n =>
          cases n with
          | dir b' bs' => exact absurd hn (hno b' bs')
          | file | symlink | special => rfl
    · obtain ⟨b',bs',hget,hread⟩ := hb
      exact ⟨rfl,c,b',bs',hc,hsearch,hget,hread,hu,hr⟩
  · rintro _ u ⟨rfl,c,b',bs',hc,hsearch,hget,hread,hu,hroot⟩
    refine Program.Ends.bind (R := fun r x => r = .ok () ∧ u.Closed fd x) ?_ ?_ ?_
    · exact Os.ends_close_reliable (hu.keeps.env ▸ hk.env ▸ henv.reliable)
        (hu.keeps.has (hk.has hfd)) fun x hx => ⟨rfl,hx⟩
    · rintro _ x ⟨-,hx⟩
      have hne : v.nextFd ≠ fd := by
        have := hk.nextFd
        omega
      have hroot' : x.root = v.root := hx.root.trans hroot
      rw [Program.ends_pure]
      refine .inr ⟨_,rfl,c,hx.has hne hu.has,hlt.le.trans hk.nextFd,?_,⟨b',bs',hroot' ▸ hget⟩,
        fun ss => ?_⟩
      · exact ((hk.step hu.keeps).mono hlt.le).trans (hx.keeps le_rfl)
      · rw [hsame,hroot',enterFrom_cons hdir hc,if_neg (by simp [hsearch]),hget]
        exact if_neg (by simp [hread])
    · rintro e x ⟨⟨⟩,_⟩
  · exact .inl ⟨hu.2,hk.step (hu.1.keeps _)⟩

/-- A turn of the walk. -/
theorem ends_enterStep (henv : w.env.Steady) (hs : Component s) (hfd : w.Has fd loc)
    (hdir : w.root.get loc = some (.dir a es)) :
    ((openPart createDir fd s).onError (Os.close fd)).Ends w (Stepped createDir s fd loc w) := by
  refine Program.Ends.onError (R := fun r v => match r with
    | .error e => Stepped createDir s fd loc w (.error e) v ∧ w.Keeps w.nextFd v
    | .ok fd' => Stepped createDir s fd loc w (.ok fd') v) ?_
    (fun _ v h => h) fun e v h => ?_
  · cases createDir with
    | false =>
      have hturn := ends_step false henv hs hfd (.refl _ _) hdir (fun _ => rfl) (by simp)
      refine hturn.mono fun r v h => ?_
      rcases h with h | ⟨fd',rfl,h⟩
      · cases r with
        | ok fd' => exact h.1
        | error e => exact h
      · exact h
    | true =>
      change Program.Ends (mkdirIfMissing s fd >>= fun _ => openPart false fd s) w _
      refine Program.Ends.bind (R := fun r v => w.Keeps w.nextFd v ∧ match r with
        | .error e => Stepped true s fd loc w (.error e) v
        | .ok () => (∃ b bs, v.root.get loc = some (.dir b bs)) ∧
            (∀ ss, enterFrom true w.root loc (s :: ss) = enterFrom true v.root loc (s :: ss)) ∧
            ∀ c, nameOf s = some c → v.root.get (loc ++ [c]) ≠ none) ?_ ?_ fun e v h => ⟨h.2,h.1⟩
      · refine ends_mkdirStep henv hs hfd hdir (fun hno e v hv he => ?_) (fun e v hv he => ?_)
          (fun c v hc hn hv => ?_) fun c b v hc hsearch hwrite hn hmode hv => ?_
        · exact ⟨hv.keeps _,.inr ⟨.refused,he,hno⟩⟩
        · exact ⟨hv.keeps _,.inl ⟨rfl,he⟩⟩
        · rw [hv.root]
          refine ⟨hv.keeps _,⟨a,es,hdir⟩,fun _ => rfl,fun d hd => ?_⟩
          cases hc.symm.trans hd
          exact hn
        · obtain ⟨a₀,es₀,a',es',hget,hget',hmode',_⟩ := hv.tree.get_loc
          cases hdir.symm.trans hget
          have hnew : v.root.get (loc ++ [c]) = some (.dir b []) := hv.tree.get_entry []
          refine ⟨hv.keeps,⟨a',es',hget'⟩,fun ss => ?_,fun d hd => ?_⟩
          · rw [enterFrom_cons hdir hc,if_neg (by simp [hsearch]),hn,if_neg (by simp),
              if_neg (by simp [hwrite]),enterFrom_cons hget' hc,hmode',
              if_neg (by simp [hsearch]),hnew]
            dsimp only
            rw [hmode,if_neg (by decide),enterFrom_new hnew hmode]
            cases place ss with
            | none => rfl
            | some p =>
              dsimp only
              rw [List.append_assoc]
              rfl
          · cases hc.symm.trans hd
            simp [hnew]
      · rintro _ v ⟨hk,⟨b,bs,hget⟩,hsame,hmade⟩
        refine (ends_step true henv hs hfd hk hget hsame fun _ => hmade).mono fun r u h => ?_
        rcases h with h | ⟨fd',rfl,h⟩
        · cases r with
          | ok fd' => exact h.1
          | error e => exact h
        · exact h
  · exact Os.ends_close_reliable (h.2.env ▸ henv.reliable) (h.2.has hfd) fun x _ => ⟨rfl,h.1⟩

variable (createDir) in
/-- The whole walk. -/
theorem ends_enterFrom {parts : List Str} (henv : w.env.Steady)
    (hparts : ∀ s ∈ parts, Component s) (hfd : w.Has fd loc)
    (hdir : ∃ a es, w.root.get loc = some (.dir a es)) :
    (enterParts createDir fd parts).Ends w fun r v => match r with
      | .ok fd' => ∃ loc', enterFrom createDir w.root loc parts = .ok loc' ∧ v.Has fd' loc'
      | .error e => createDir = true ∧ IsFull w.env e ∨
          ∃ b : Barrier, b.Raises e ∧ enterFrom createDir w.root loc parts = .error b := by
  induction parts generalizing w fd loc with
  | nil => exact ⟨loc,by rw [enterFrom],hfd⟩
  | cons s parts ih =>
    obtain ⟨a,es,hdir⟩ := hdir
    refine Program.Ends.bind (ends_enterStep henv (hparts s List.mem_cons_self) hfd hdir) ?_ ?_
    · rintro fd' v ⟨c,hhas,hle,hk,hdir',hsame⟩
      rw [hsame,← hk.env]
      exact ih (hk.env ▸ henv) (fun s hs => hparts s (List.mem_cons_of_mem _ hs)) hhas hdir'
    · rintro e v (h | ⟨b,he,hb⟩)
      · exact .inl h
      · exact .inr ⟨b,he,hb parts⟩

/-- The walk to the parent of a path, in full. -/
theorem ends_parentOf {p : Str} (henv : w.env.Steady) (ht : w.root.isDir = true)
    (hp : Normalised p) : (enterParent rootDirectory p createDir).Ends w fun r v => match r with
      | .ok fd => ∃ loc, parentOf createDir w.root p = .ok loc ∧ v.Has fd loc ∧ w.nextFd ≤ fd ∧
          w.Keeps w.nextFd v ∧ place (split p).dropLast = some loc ∧ Walked createDir loc w v ∧
          Enterable v.root loc
      | .error e => (createDir = true ∧ IsFull w.env e ∨
          ∃ b : Barrier, b.Raises e ∧ parentOf createDir w.root p = .error b) ∧
          Walked createDir (way (split p).dropLast) w v ∧ w.Keeps w.nextFd v := by
  obtain ⟨a,es,hroot⟩ := Node.eq_dir ht
  have hmode : w.root.attr.mode = a.mode := by rw [hroot]; rfl
  have hexact : (enterParent rootDirectory p createDir).Ends w fun r v => match r with
      | .ok fd => ∃ loc, parentOf createDir w.root p = .ok loc ∧ v.Has fd loc
      | .error e => createDir = true ∧ IsFull w.env e ∨
          ∃ b : Barrier, b.Raises e ∧ parentOf createDir w.root p = .error b := by
    unfold parentOf
    rw [hmode]
    cases hread : a.mode.read with
    | false =>
      refine Program.Ends.bind (R := fun r _ => r = .error (Os.oserror .eacces)) ?_
        (fun _ _ h => by cases h) ?_
      · have hopens : World.openNode w.root dirFlags = .error .eacces := by
          rw [hroot]
          change (if a.mode.read = true then Except.ok () else .error Errno.eacces) = _
          rw [hread]
          rfl
        rw [openWork_eq]
        refine Os.ends_reliable henv.reliable (by decide) (fun e he => ?_) fun m v hv => ?_
        · rw [openAt_root,hopens] at he
          cases he
          rfl
        · rw [openAt_root,hopens] at hv
          cases hv
      · rintro e v ⟨⟩
        exact .inr ⟨.refused,.inr rfl,rfl⟩
    | true =>
      refine Program.Ends.bind (R := fun r v => r = .ok w.nextFd ∧ w.Opened [] v ∧
        v.root = w.root) ?_ ?_ ?_
      · exact ends_openListed henv.reliable hroot hread fun v hv hr => ⟨rfl,hv,hr⟩
      · rintro _ v ⟨⟨⟩,hv,hr⟩
        have h := ends_enterFrom createDir (hv.keeps.env ▸ henv)
          (fun s hs => component_of_mem hp (List.dropLast_subset (split p) hs)) hv.has
          ⟨a,es,by rw [hr,hroot]; rfl⟩
        rw [hr,hv.keeps.env] at h
        exact h
      · rintro e v ⟨⟨⟩,_⟩
  have hwalk : (enterParent rootDirectory p createDir).Ends w fun r v => match r with
      | .error _ => Walked createDir (way (split p).dropLast) w v ∧ w.Keeps w.nextFd v
      | .ok fd => ∃ loc, place (split p).dropLast = some loc ∧ Walked createDir loc w v ∧
          Enterable v.root loc ∧ w.Keeps w.nextFd v ∧ w.nextFd ≤ fd ∧ v.Has fd loc :=
    ends_enterParent hp (fun _ _ hw hk => ⟨hw,hk⟩)
      fun fd loc v hloc hw henter hk hle hhas => ⟨loc,hloc,hw,henter,hk,hle,hhas⟩
  refine (hexact.and hwalk).mono ?_
  rintro r v ⟨h,h'⟩
  cases r with
  | error e => exact ⟨h,h'⟩
  | ok fd =>
    obtain ⟨loc,hloc,hhas⟩ := h
    obtain ⟨loc',hplace,hw,henter,hk,hle,hhas'⟩ := h'
    cases hhas.locOf.symm.trans hhas'.locOf
    exact ⟨loc,hloc,hhas,hle,hk,hplace,hw,henter⟩

/-- `_open_parent`, in full. -/
theorem ends_inParent {α : Type} [Owning α] {p : Str} {body : ℕ → Str → Api α}
    {Q : Except (Exc AppError) α → World → Prop} (henv : w.env.Steady) (ht : w.root.isDir = true)
    (hp : Normalised p)
    (hfull : createDir = true → ∀ e v, IsFull w.env e →
      Walked createDir (way (split p).dropLast) w v → w.Keeps w.nextFd v → Q (.error e) v)
    (hbarrier : ∀ b e v, parentOf createDir w.root p = .error b → b.Raises e →
      Walked createDir (way (split p).dropLast) w v → w.Keeps w.nextFd v → Q (.error e) v)
    (hbody : ∀ fd loc v, parentOf createDir w.root p = .ok loc →
      place (split p).dropLast = some loc → Walked createDir loc w v → Enterable v.root loc →
      w.Keeps w.nextFd v → w.nextFd ≤ fd → v.Has fd loc → (body fd (lastPart p)).Ends v fun r u =>
        v.Keeps v.nextFd u ∧ ∀ x, u.Closed fd x → Q r x) :
    (openParent rootDirectory p createDir body).Ends w Q := by
  rw [openParent_owning]
  refine Program.Ends.bind (ends_parentOf henv ht hp) ?_ ?_
  · rintro fd v ⟨loc,hloc,hhas,hle,hk,hplace,hw,henter⟩
    refine (hbody fd loc v hloc hplace hw henter hk hle hhas).ensureOrDrop fun r u hu => ?_
    exact Os.ends_close_reliable (hu.1.env ▸ hk.env ▸ henv.reliable) (hu.1.has hhas)
      fun x hx => ⟨rfl,hu.2 x hx⟩
  · rintro e v ⟨⟨hcreate,he⟩ | ⟨b,he,hb⟩,hw,hk⟩
    · exact hfull hcreate e v he hw hk
    · exact hbarrier b e v hb he hw hk

end Session
end CodeExecutorApi
