import CodeExecutorApi.Sessions.Barriers
import CodeExecutorApi.Sessions.Writing

/-! What the file operations of a session come to in any tree: which exception they end with, as a
function of the tree and the path. -/
namespace CodeExecutorApi
open Python Posix Machine

/-- What a normalised path leads to. -/
def reach (t : Node) (p : Str) : Except Barrier Node :=
  match parentOf false t p with
  | .error b => .error b
  | .ok loc =>
    match t.get loc, nameOf (Session.lastPart p) with
    | some (.dir a _), some c =>
      if a.mode.search = false then .error .refused
      else
        match t.get (loc ++ [c]) with
        | some n => .ok n
        | none => .error .missing
    | _, _ => .error .refused

/-- The permission bits do not let the server open an entry. -/
def unopenable : Node → Bool
  | .file a _ | .dir a _ | .special a _ => !a.mode.read
  | .symlink .. => false

/-- The mode of the directory a walk ends in. A new one has all permissions. -/
def modeAt (t : Node) (loc : Loc) : Mode :=
  match t.get loc with
  | some n => n.attr.mode
  | none => Session.dirMode

/-- The directory a path is in can be changed. -/
def changeable (t : Node) (p : Str) : Bool :=
  match parentOf false t p with
  | .ok loc => (modeAt t loc).write
  | .error _ => false

namespace Session
variable {w : World} {q p : Str} {fd : ℕ} {loc : Loc} {a : Attr} {es : List (Name × Node)} {s : Str}

theorem reach_entry {c : Name} (hloc : parentOf false w.root p = .ok loc)
    (hdir : w.root.get loc = some (.dir a es)) (hc : nameOf (lastPart p) = some c)
    (hsearch : a.mode.search = true) : reach w.root p =
      match w.root.get (loc ++ [c]) with
      | some n => .ok n
      | none => .error .missing := by
  unfold reach
  rw [hloc]
  dsimp only
  rw [hdir,hc]
  exact if_neg (by simp [hsearch])

theorem reach_refused (hloc : parentOf false w.root p = .ok loc)
    (hdir : w.root.get loc = some (.dir a es))
    (h : nameOf (lastPart p) = none ∨ a.mode.search = false) : reach w.root p = .error .refused := by
  unfold reach
  rw [hloc]
  dsimp only
  rw [hdir]
  cases hc : nameOf (lastPart p) with
  | none => rfl
  | some c => exact if_pos (h.resolve_left fun h => by rw [hc] at h; cases h)

theorem reach_barrier {b : Barrier} (h : parentOf false w.root p = .error b) :
    reach w.root p = .error b := by
  unfold reach
  rw [h]

/-- Opening a file to read it, in any directory. -/
theorem ends_openToRead {Q : Except (Exc AppError) ℕ → World → Prop} (henv : w.env.Steady)
    (hs : Component s) (hfd : w.Has fd loc) (hdir : w.root.get loc = some (.dir a es))
    (hrefused : nameOf s = none ∨ a.mode.search = false → ∀ e v, w.Quiet v → Refusal e →
      Q (.error e) v)
    (hmissing : ∀ c, nameOf s = some c → a.mode.search = true →
      w.root.get (loc ++ [c]) = none → ∀ v, w.Quiet v → Q (.error (Os.oserror .enoent)) v)
    (hunopened : ∀ c n, nameOf s = some c → a.mode.search = true →
      w.root.get (loc ++ [c]) = some n → unopenable n = true →
      ∀ e v, w.Quiet v → Refusal e → Q (.error e) v)
    (hgone : ∀ c n, nameOf s = some c → a.mode.search = true →
      w.root.get (loc ++ [c]) = some n → unopenable n = false → n.type ≠ .regular →
      n.type ≠ .directory → ∀ errno v, w.Quiet v → Q (.error (.os .fileNotFound errno)) v)
    (hok : ∀ c n v, nameOf s = some c → a.mode.search = true → w.root.get (loc ++ [c]) = some n →
      unopenable n = false → w.Opened (loc ++ [c]) v → v.root = w.root → Q (.ok w.nextFd) v) :
    (mapErrno [.eloop,.enxio,.enodev,.enotdir] .fileNotFound
      (Os.open_ s readFlags dirMode (some fd))).Ends w Q := by
  refine ends_mapErrno (Os.ends_lookup hs hfd hdir (fun hno e v hv he => ?_) fun c hc hsearch => ?_)
  · have hrefusal : Refusal e := he.resolve_right (not_faulted henv (by decide))
    change Q (.error (mapped _ .fileNotFound e)) v
    rw [mapped_refusal hrefusal (by decide) (by decide)]
    exact hrefused hno e v hv hrefusal
  have hquiet := World.quiet_tick w
  refine Os.ends_reliable henv.reliable (by decide) (fun e he => ?_) fun m v hv => ?_
  · rw [World.openLoc] at he
    cases hn : w.root.get (loc ++ [c]) with
    | none =>
      rw [hn] at he
      cases he
      exact hmissing c hc hsearch hn _ hquiet
    | some n =>
      rw [hn] at he
      have hclosed (b : Attr) (hread : b.mode.read = false) (hun : unopenable n = !b.mode.read)
          (herr : e = .eacces) : Q ((Except.error (Os.oserror e)).mapError
            (mapped [.eloop,.enxio,.enodev,.enotdir] .fileNotFound)) w.tick := by
        subst herr
        exact hunopened c n hc hsearch hn (by rw [hun,hread]; rfl) _ _ hquiet (.inr rfl)
      cases n with
      | dir b bs | file b bs =>
        change Except.map _ (if b.mode.read = true then Except.ok () else .error Errno.eacces) =
          _ at he
        by_cases hread : b.mode.read = true
        · rw [if_pos hread] at he
          cases he
        · rw [if_neg hread] at he
          cases he
          exact hclosed b (Bool.not_eq_true _ ▸ hread) rfl rfl
      | symlink =>
        cases he
        exact hgone c _ hc hsearch hn rfl (by simp [Node.type]) (by simp [Node.type]) _ _ hquiet
      | special b kind =>
        change Except.map _ (if b.mode.read = true then _ else Except.error Errno.eacces) =
          Except.error e at he
        by_cases hread : b.mode.read = true
        · rw [if_pos hread] at he
          have hun : unopenable (.special b kind) = false := by rw [unopenable,hread]; rfl
          split at he <;> cases he
          · exact hgone c _ hc hsearch hn hun (by simp [Node.type]) (by simp [Node.type]) _ _ hquiet
          · exact hgone c _ hc hsearch hn hun (by simp [Node.type]) (by simp [Node.type]) _ _ hquiet
        · rw [if_neg hread] at he
          cases he
          exact hclosed b (Bool.not_eq_true _ ▸ hread) rfl rfl
  · rw [World.openLoc] at hv
    cases hn : w.root.get (loc ++ [c]) with
    | none =>
      rw [hn] at hv
      cases hv
    | some n =>
      rw [hn] at hv
      have hopen (hread : unopenable n = false) (hm : (m,v) = w.alloc (loc ++ [c])) :
          Q (.ok m) v.tick := by
        cases hm
        exact hok c n _ hc hsearch hn hread (World.opened_alloc w _) rfl
      cases n with
      | dir b bs | file b bs =>
        change Except.map _ (if b.mode.read = true then Except.ok () else .error Errno.eacces) =
          _ at hv
        by_cases hread : b.mode.read = true
        · rw [if_pos hread] at hv
          exact hopen (by rw [unopenable,hread]; rfl) (Except.ok.inj hv).symm
        · rw [if_neg hread] at hv
          cases hv
      | symlink => cases hv
      | special b kind =>
        change Except.map _ (if b.mode.read = true then _ else Except.error Errno.eacces) = _ at hv
        by_cases hread : b.mode.read = true
        · rw [if_pos hread] at hv
          have hun : unopenable (.special b kind) = false := by rw [unopenable,hread]; rfl
          split at hv <;> first | cases hv; done | exact hopen hun (Except.ok.inj hv).symm
        · rw [if_neg hread] at hv
          cases hv

/-- How reading a file can fail, and what it takes to succeed. -/
def Serves (refuses : Str → Bool) (t : Node) (p : Str) : Except (Exc AppError) Payload → Prop
  | .ok _ => ∃ n, reach t p = .ok n ∧ n.type = .regular ∧ unopenable n = false ∧
      refuses p = false ∧ hasSurrogate p = false
  | .error e => (∃ b : Barrier, b.Raises e ∧ reach t p = .error b) ∨ ∃ n, reach t p = .ok n ∧
      ((unopenable n = true ∨ n.type = .regular ∧ (refuses p = true ∨ hasSurrogate p = true)) ∧
          (Refusal e ∨ e = .valueError) ∨
        unopenable n = false ∧ (n.type = .directory ∧ e = .os .isADirectory none ∨
          n.type ≠ .directory ∧ n.type ≠ .regular ∧ ∃ errno, e = .os .fileNotFound errno))

/-- The payload of a response is an open file. -/
def Sends : Except (Exc AppError) Payload → World → Prop
  | .ok payload, v => ∃ loc a content, v.Has payload.fd loc ∧
      v.root.get loc = some (.file a content)
  | .error _, _ => True

/-- `Session.read_file`, in full. -/
theorem ends_readFile_any (henv : w.env.Steady) (ht : w.root.isDir = true)
    (hq : normalizeSubPath q = .ok p) : (readFile rootDirectory q none).Ends w fun r v =>
      Still w v ∧ Serves w.env.refuses w.root p r ∧ Sends r v := by
  have hp := normalizeSubPath_normalised hq
  unfold readFile
  rw [normalize_ok hq,Program.pure_bind]
  refine ends_inParent henv ht hp (by simp) (fun b e v hb he hw hk => ?_) ?_
  · exact ⟨⟨hw.made rfl,hk⟩,.inl ⟨b,he,reach_barrier hb⟩,trivial⟩
  intro fd loc v hloc _ hw henter hk hle hhas
  have hroot := hw.made rfl
  obtain ⟨a,es,hdir,_⟩ := hroot ▸ henter.dir
  have hstill {u x : World} (hu : Still v u) (hx : u.Closed fd x) : Still w x :=
    (⟨hu.root.trans hroot,hk.step hu.keeps⟩ : Still w u).of_closed hle hx
  have hreach (c : Name) (hc : nameOf (lastPart p) = some c) (hsearch : a.mode.search = true) :=
    reach_entry hloc hdir hc hsearch
  refine Program.Ends.bind (R := fun r u => match r with
    | .error e => v.Quiet u ∧ Serves w.env.refuses w.root p (.error e)
    | .ok fd' => fd' = v.nextFd ∧ u.root = v.root ∧ ∃ c n, nameOf (lastPart p) = some c ∧
        reach w.root p = .ok n ∧ w.root.get (loc ++ [c]) = some n ∧ unopenable n = false ∧
        v.Opened (loc ++ [c]) u) ?_ ?_ ?_
  · refine ends_openToRead (hk.env ▸ henv) (component_lastPart hp) hhas (hroot ▸ hdir) ?_ ?_ ?_ ?_ ?_
    · exact fun hno e u hu he => ⟨hu,.inl ⟨.refused,he,reach_refused hloc hdir hno⟩⟩
    · intro c hc hsearch hn u hu
      rw [hroot] at hn
      refine ⟨hu,.inl ⟨.missing,.inl rfl,?_⟩⟩
      rw [hreach c hc hsearch,hn]
    · intro c n hc hsearch hn hun e u hu he
      rw [hroot] at hn
      refine ⟨hu,.inr ⟨n,?_,.inl ⟨.inl hun,.inl he⟩⟩⟩
      rw [hreach c hc hsearch,hn]
    · intro c n hc hsearch hn hun hreg hd errno u hu
      rw [hroot] at hn
      refine ⟨hu,.inr ⟨n,?_,.inr ⟨hun,.inr ⟨hd,hreg,errno,rfl⟩⟩⟩⟩
      rw [hreach c hc hsearch,hn]
    · intro c n u hc hsearch hn hun hu huroot
      rw [hroot] at hn
      exact ⟨rfl,huroot,c,n,hc,by rw [hreach c hc hsearch,hn],hn,hun,hu⟩
  · rintro _ u ⟨rfl,huroot,c,n,hc,hr,hn,hun,hu⟩
    have hshut {y x : World} (hy : u.Closed v.nextFd y) (hx : y.Closed fd x) : Still w x := by
      refine hstill ⟨hy.root.trans huroot,?_⟩ hx
      exact hu.keeps.trans (hy.keeps le_rfl)
    have herror {e : Exc AppError} {y : World} (hy : u.Closed v.nextFd y)
        (he : Serves w.env.refuses w.root p (.error e)) : v.Keeps v.nextFd y ∧ ∀ x, y.Closed fd x →
          Still w x ∧ Serves w.env.refuses w.root p (.error e) ∧ Sends (.error e) x :=
      ⟨hu.keeps.trans (hy.keeps le_rfl),fun x hx => ⟨hshut hy hx,he,trivial⟩⟩
    have henvs : u.env = w.env := hu.keeps.env.trans hk.env
    refine ends_serveFile (n := n) (hu.keeps.env ▸ hk.env ▸ henv.reliable) hu.has
      (by rw [huroot,hroot,hn]) ?_ ?_ ?_ ?_ ?_
    · exact fun hd y hy => herror hy (.inr ⟨n,hr,.inr ⟨hun,.inl ⟨hd,rfl⟩⟩⟩)
    · exact fun hd hreg y hy => herror hy (.inr ⟨n,hr,.inr ⟨hun,.inr ⟨hd,hreg,none,rfl⟩⟩⟩)
    · exact fun hreg hrefuses y hy =>
        herror hy (.inr ⟨n,hr,.inl ⟨.inr ⟨hreg,.inl (henvs ▸ hrefuses)⟩,.inr rfl⟩⟩)
    · exact fun hreg _ hsur y hy =>
        herror hy (.inr ⟨n,hr,.inl ⟨.inr ⟨hreg,.inr hsur⟩,.inl (.inl (.inl rfl))⟩⟩)
    · intro hreg hrefuses hsur header y _ hy
      refine ⟨hu.keeps.step (hy.keeps _),fun x hx => ?_⟩
      have hx' := hstill ⟨hy.root.trans huroot,hu.keeps.step (hy.keeps _)⟩ hx
      refine ⟨hx',⟨n,hr,hreg,hun,henvs ▸ hrefuses,hsur⟩,?_⟩
      cases n with
      | file b content =>
        refine ⟨loc ++ [c],b,content,hx.has ?_ ((hy.keeps _).has hu.has),?_⟩
        · exact hhas.lt.ne'
        · rw [hx.root,hy.root,huroot,hroot,hn]
      | dir | symlink | special => cases hreg
  · rintro e u ⟨hu,he⟩
    exact ⟨hu.keeps _,fun x hx => ⟨hstill ⟨hu.root,hu.keeps _⟩ hx,he,trivial⟩⟩

/-- The entry is reported, or it is not. -/
theorem ends_statEntry_any (fd : ℕ) (c : Name) :
    (statEntry fd (fsdecode c.bytes)).Ends w fun r v => w.Quiet v ∧ ∃ o, r = .ok o := by
  have hs := component_fsdecode c
  obtain ⟨b,_,hpath⟩ := (Os.path_component (ε := AppError) hs).resolve_left fun h => by
    rw [fsencode_fsdecode] at h
    cases h.1
  refine Program.Ends.handle (R := fun r v => w.Quiet v ∧ ∀ e, r = .error e → Os.IsOSError e) ?_
    (fun o v h => ⟨h.1,o,rfl⟩) fun e v h => ?_
  · refine Program.Ends.bind (R := fun r v => w.Quiet v ∧ ∀ e, r = .error e → Os.IsOSError e) ?_
      (fun st v h => ⟨h.1,fun _ he => by cases he⟩)
      fun e v h => ⟨h.1,fun _ he => h.2 _ (by cases he; rfl)⟩
    unfold Os.stat
    rw [hpath,Program.pure_bind]
    refine Os.ends_syscall (fun e _ => ⟨World.quiet_tick w,?_⟩) (fun e _ => ⟨World.quiet_tick w,?_⟩)
      fun st v hv => ⟨?_,by simp⟩
    · rintro _ ⟨⟩
      exact ⟨_,_,rfl⟩
    · rintro _ ⟨⟩
      exact ⟨_,_,rfl⟩
    · obtain ⟨at_,hat⟩ := World.resolving_ok hv
      unfold World.statLoc at hat
      split at hat <;> cases hat
      exact World.quiet_tick w
  · obtain ⟨cls,errno,rfl⟩ := h.2 e rfl
    exact ⟨h.1,none,rfl⟩

theorem ends_statEntries_any (fd : ℕ) (l : List Name) :
    (statEntries fd (l.map fun c => fsdecode c.bytes)).Ends w fun r v =>
      w.Quiet v ∧ ∃ entries, r = .ok entries := by
  induction l generalizing w with
  | nil => exact ⟨.refl w,[],rfl⟩
  | cons c l ih =>
    refine Program.Ends.bind (ends_statEntry_any fd c) ?_ (by rintro e v ⟨-,_,⟨⟩⟩)
    rintro o v ⟨hv,-⟩
    refine Program.Ends.bind ih ?_ (by rintro e u ⟨-,_,⟨⟩⟩)
    rintro entries u ⟨hu,-⟩
    exact ⟨hv.trans hu,_,rfl⟩

/-- An open directory is listed, whatever its entries are. -/
theorem ends_listEntries_any (henv : w.env.Reliable) (hfd : w.Has fd loc)
    (hdir : w.root.get loc = some (.dir a es)) :
    (Program.ensure
      (do
        let names ← Os.listdir fd
        statEntries fd names)
      (Os.close fd)).Ends w fun r v => w.Closed fd v ∧ ∃ entries, r = .ok entries := by
  refine Program.Ends.ensure (R := fun r v => w.Quiet v ∧ ∃ entries, r = .ok entries) ?_ ?_
  · refine Program.Ends.bind (R := fun r v => w.Quiet v ∧
      r = .ok ((es.map Prod.fst).map fun c => fsdecode c.bytes)) ?_ ?_ (by rintro e v ⟨-,⟨⟩⟩)
    · refine Os.ends_listdir henv hfd hdir fun v hv => ⟨hv,?_⟩
      rw [List.map_map]
      rfl
    · rintro _ v ⟨hv,⟨⟩⟩
      exact (ends_statEntries_any fd _).mono fun r u hu => ⟨hv.trans hu.1,hu.2⟩
  · rintro r v ⟨hv,h⟩
    exact Os.ends_close_reliable (hv.env ▸ henv) ((hv.keeps _).has hfd)
      fun u hu => ⟨rfl,hv.closed hu,h⟩

/-- `Session.list_directory` of the session itself, in full. -/
theorem ends_listRoot_any (henv : w.env.Steady) (hq : strip q = []) (hdir : w.root = .dir a es) :
    (listDirectory rootDirectory q).Ends w fun r v => Still w v ∧
      (a.mode.read = true ∧ (∃ listing, r = .ok listing) ∨
        a.mode.read = false ∧ r = .error (Os.oserror .eacces)) := by
  unfold listDirectory
  rw [if_pos hq,Program.pure_bind]
  dsimp only
  rw [if_pos rfl]
  cases hread : a.mode.read with
  | false =>
    refine Program.Ends.bind (R := fun r v => r = .error (Os.oserror .eacces) ∧ w.Quiet v) ?_ ?_ ?_
    · have hopens : World.openNode w.root dirFlags = .error .eacces := by
        rw [hdir]
        change (if a.mode.read = true then Except.ok () else .error Errno.eacces) = _
        rw [hread]
        rfl
      rw [openWork_eq]
      refine Os.ends_reliable henv.reliable (by decide) (fun e he => ?_) fun m v hv => ?_
      · rw [openAt_root,hopens] at he
        cases he
        exact ⟨rfl,World.quiet_tick w⟩
      · rw [openAt_root,hopens] at hv
        cases hv
    · rintro _ v ⟨⟨⟩,_⟩
    · rintro e v ⟨⟨⟩,hv⟩
      exact ⟨⟨hv.root,hv.keeps _⟩,.inr ⟨rfl,rfl⟩⟩
  | true =>
    refine Program.Ends.bind (R := fun r v => r = .ok w.nextFd ∧ w.Opened [] v ∧ v.root = w.root)
      ?_ ?_ ?_
    · exact ends_openListed henv.reliable hdir hread fun v hv hroot => ⟨rfl,hv,hroot⟩
    · rintro _ v ⟨⟨⟩,hv,hroot⟩
      refine Program.Ends.bind (ends_listEntries_any (hv.keeps.env ▸ henv.reliable) hv.has
        (by rw [hroot,hdir]; rfl)) ?_ (by rintro e u ⟨-,_,⟨⟩⟩)
      rintro entries u ⟨hu,-⟩
      exact ⟨(⟨hroot,hv.keeps⟩ : Still w v).of_closed le_rfl hu,.inl ⟨rfl,_,rfl⟩⟩
    · rintro _ v ⟨⟨⟩,_⟩

/-- A directory that was reached and can be opened is listed. -/
theorem ends_listReached (henv : w.env.Steady) (ht : w.root.isDir = true)
    (hq : normalizeSubPath q = .ok p) {n : Node} (hr : reach w.root p = .ok n)
    (hd : n.type = .directory) (hun : unopenable n = false) :
    (listDirectory rootDirectory q).Ends w fun r v => Still w v ∧ ∃ listing, r = .ok listing := by
  have hp := normalizeSubPath_normalised hq
  unfold listDirectory
  rw [if_neg (strip_ne_nil hq),normalize_ok hq,Program.pure_bind]
  dsimp only
  rw [if_neg (normalizeSubPath_ne_nil hq)]
  refine Program.Ends.bind (R := fun r v => ∃ fd loc a es, r = .ok fd ∧ w.nextFd ≤ fd ∧ Still w v ∧
    v.Has fd loc ∧ v.root.get loc = some (.dir a es)) ?_ ?_ ?_
  · refine ends_inParent henv ht hp (by simp) (fun b e v hb he hw hk => ?_) ?_
    · rw [reach_barrier hb] at hr
      cases hr
    intro fd loc v hloc _ hw henter hk hle hhas
    have hroot := hw.made rfl
    obtain ⟨a,es,hdir,_⟩ := hroot ▸ henter.dir
    have hbad (hno : nameOf (lastPart p) = none ∨ a.mode.search = false) : False := by
      rw [reach_refused hloc hdir hno] at hr
      cases hr
    refine ends_openStep false (hk.env ▸ henv) (component_lastPart hp) hhas
      (hroot ▸ hdir) (fun hno e u hu he => ?_) (fun c hc hsearch hno e u hu he => ?_) ?_
    · have hno' := hno []
      rw [hroot] at hno'
      cases hc : nameOf (lastPart p) with
      | none => exact (hbad (.inl hc)).elim
      | some c =>
        by_cases hsearch : a.mode.search = true
        · rw [reach_entry hloc hdir hc hsearch] at hr
          rw [enterFrom_cons hdir hc,if_neg (by simp [hsearch])] at hno'
          cases hn : w.root.get (loc ++ [c]) with
          | none =>
            rw [hn] at hr
            cases hr
          | some m =>
            rw [hn] at hr hno'
            cases hr
            cases n with
            | dir b bs =>
              have hread : b.mode.read = true := by simpa [unopenable] using hun
              dsimp only at hno'
              rw [hread,if_neg (by simp),enterFrom] at hno'
              cases hno'
            | file | symlink | special => cases hd
        · exact (hbad (.inr (Bool.not_eq_true _ ▸ hsearch))).elim
    · rw [reach_entry hloc hdir hc hsearch] at hr
      rw [hroot] at hno
      cases hn : w.root.get (loc ++ [c]) with
      | none =>
        rw [hn] at hr
        cases hr
      | some m =>
        rw [hn] at hr
        cases hr
        cases n with
        | dir b bs => exact absurd hn (hno b bs)
        | file | symlink | special => cases hd
    · rintro c u hc hsearch ⟨b,bs,hget,_⟩ hu huroot
      refine ⟨hu.keeps,fun x hx => ⟨_,loc ++ [c],b,bs,rfl,hk.nextFd,?_,hx.has hhas.lt.ne' hu.has,?_⟩⟩
      · exact (⟨huroot.trans hroot,hk.step hu.keeps⟩ : Still w u).of_closed hle hx
      · rw [hx.root,huroot,hget]
  · rintro fd' v ⟨fd,loc,a,es,⟨⟩,hle,hv,hhas,hget⟩
    refine Program.Ends.bind (ends_listEntries_any (hv.keeps.env ▸ henv.reliable) hhas hget) ?_
      (by rintro e u ⟨-,_,⟨⟩⟩)
    rintro entries u ⟨hu,-⟩
    exact ⟨hv.of_closed hle hu,_,rfl⟩
  · rintro _ v ⟨fd,loc,a,es,⟨⟩,_⟩

/-- How deleting a file can fail, and what it takes to succeed. -/
def Deletes (t : Node) (p : Str) : Except (Exc AppError) Unit → Prop
  | .ok _ => ∃ n, reach t p = .ok n ∧ n.type ≠ .directory ∧ changeable t p = true
  | .error e => (∃ b : Barrier, b.Raises e ∧ reach t p = .error b) ∨ ∃ n, reach t p = .ok n ∧
      (n.type = .directory ∧ e = .os .isADirectory none ∨
        n.type ≠ .directory ∧ changeable t p = false ∧ e = Os.oserror .eacces)

/-- `Session.delete_file`, in full. -/
theorem ends_deleteFile_any (henv : w.env.Steady) (ht : w.root.isDir = true)
    (hq : normalizeSubPath q = .ok p) :
    (deleteFile rootDirectory q).Ends w fun r _ => Deletes w.root p r := by
  have hp := normalizeSubPath_normalised hq
  have hs := component_lastPart hp
  unfold deleteFile
  rw [normalize_ok hq,Program.pure_bind]
  refine ends_inParent henv ht hp (by simp) (fun b e v hb he _ _ => .inl ⟨b,he,reach_barrier hb⟩) ?_
  intro fd loc v hloc _ hw henter hk hle hhas
  have hroot := hw.made rfl
  obtain ⟨a,es,hdir,_⟩ := hroot ▸ henter.dir
  have hchange : changeable w.root p = a.mode.write := by
    unfold changeable modeAt
    rw [hloc]
    dsimp only
    rw [hdir]
    rfl
  refine Program.Ends.bind (R := fun r u => v.Quiet u ∧ match r with
    | .error e => Deletes w.root p (.error e)
    | .ok st => ∃ c n, nameOf (lastPart p) = some c ∧ a.mode.search = true ∧
        w.root.get (loc ++ [c]) = some n ∧ reach w.root p = .ok n ∧ st = n.stat) ?_ ?_ ?_
  · refine Os.ends_lookup hs hhas (hroot ▸ hdir) (fun hno e u hu he => ⟨hu,?_⟩)
      fun c hc hsearch => ?_
    · refine .inl ⟨.refused,he.resolve_right ?_,reach_refused hloc hdir hno⟩
      exact not_faulted (hk.env ▸ henv) (by decide)
    have hreach := reach_entry hloc hdir hc hsearch
    refine Os.ends_reliable (hk.env ▸ henv.reliable) (by decide)
      (fun e he => ⟨World.quiet_tick v,?_⟩) fun st u hu => ?_
    · rw [World.statLoc,hroot] at he
      cases hn : w.root.get (loc ++ [c]) with
      | none =>
        rw [hn] at he hreach
        cases he
        exact .inl ⟨.missing,.inl rfl,hreach⟩
      | some n =>
        rw [hn] at he
        cases he
    · rw [World.statLoc,hroot] at hu
      cases hn : w.root.get (loc ++ [c]) with
      | none =>
        rw [hn] at hu
        cases hu
      | some n =>
        rw [hn] at hu hreach
        cases hu
        exact ⟨World.quiet_tick v,c,n,hc,hsearch,hn,hreach,rfl⟩
  · rintro st u ⟨hu,c,n,hc,hsearch,hn,hreach,rfl⟩
    have huHas := (hu.keeps _).has hhas
    have huroot : u.root = w.root := hu.root.trans hroot
    dsimp only
    by_cases hd : n.type = .directory
    · rw [if_pos (show n.stat.type = .directory from hd)]
      exact ⟨hu.keeps _,fun _ _ => .inr ⟨n,hreach,.inl ⟨hd,rfl⟩⟩⟩
    rw [if_neg (show n.stat.type ≠ .directory from hd)]
    have hfile : n.isDir = false := decide_eq_false hd
    refine Os.ends_lookup hs huHas (huroot ▸ hdir) (fun hno => ?_) fun c' hc' _ => ?_
    · rcases hno with hno | hno
      · rw [hc] at hno
        cases hno
      · rw [hsearch] at hno
        cases hno
    cases hc.symm.trans hc'
    have hwritable := Os.writable_entry (w := u) (huroot ▸ hdir) c
    refine Os.ends_reliable (hu.env ▸ hk.env ▸ henv.reliable) (by decide) (fun e he => ?_)
      fun x y hy => ?_
    · refine ⟨(hu.keeps _).step ((World.quiet_tick u).keeps _),fun _ _ => .inr ⟨n,hreach,.inr ?_⟩⟩
      rw [World.unlinkLoc,huroot,hn,hwritable] at he
      by_cases hwrite : a.mode.write = true
      · rw [if_pos hwrite] at he
        simp only [hfile] at he
        cases he
      · rw [if_neg hwrite] at he
        cases he
        exact ⟨hd,by rw [hchange]; exact Bool.not_eq_true _ ▸ hwrite,rfl⟩
    · rw [World.unlinkLoc,huroot,hn,hwritable] at hy
      by_cases hwrite : a.mode.write = true
      · rw [if_pos hwrite] at hy
        simp only [hfile] at hy
        cases hy
        have hkeeps := (World.keeps_unlink u (loc ++ [c]) u.nextFd).trans
          ((World.quiet_tick _).keeps _)
        exact ⟨(hu.keeps _).step hkeeps,fun _ _ => ⟨n,hreach,hd,hchange.trans hwrite⟩⟩
      · rw [if_neg hwrite] at hy
        cases hy
  · exact fun e u h => ⟨h.1.keeps _,fun _ _ => h.2⟩

end Session
end CodeExecutorApi
