import CodeExecutorApi.Executor.EntryPaths
import CodeExecutorApi.Sessions.Reading
import CodeExecutorApi.SubPaths

/-! The paths the walk yields, handed to the files API. The walk has listed every directory above a
file, so the API gets to the file whatever the modes of other directories are. -/
namespace CodeExecutorApi
open Python Posix Machine

/-- The components of the sub_path of a place. -/
def namesOf (loc : Loc) : List Str := loc.map fun c => fsdecode c.bytes

section Names
variable {loc : Loc} {c : Name}

theorem component_of_mem_namesOf {s : Str} (h : s ∈ namesOf loc) : Component s := by
  obtain ⟨c,-,rfl⟩ := List.mem_map.mp h
  exact component_fsdecode c

theorem split_subPathOf (hne : loc ≠ []) : split (subPathOf loc) = namesOf loc :=
  split_join (fun _ hs => (component_of_mem_namesOf hs).slash_notMem) (by simpa [namesOf] using hne)

theorem fold_subPathOf (hne : loc ≠ []) : fold (subPathOf loc) = namesOf loc := by
  rw [fold,split_subPathOf hne]
  exact foldl_climb_plain (fun s hs => (component_of_mem_namesOf hs).toPlain) []

/-- The path of a file is in normal form. -/
theorem normalizeSubPath_subPathOf (hne : loc ≠ []) :
    normalizeSubPath (subPathOf loc) = .ok (subPathOf loc) := by
  have hnul : 0 ∉ subPathOf loc := by
    intro hmem
    obtain ⟨s,hs,h0⟩ := mem_split_of_mem hmem (by decide)
    rw [split_subPathOf hne] at hs
    exact (component_of_mem_namesOf hs).nul_notMem h0
  have hin : Inside (fold (subPathOf loc)) := by
    rw [fold_subPathOf hne]
    refine ⟨by simpa [namesOf] using hne,fun hhead => ?_⟩
    exact (component_of_mem_namesOf (List.mem_of_head? hhead)).ne_pardir rfl
  have hjoin : join (fold (subPathOf loc)) = subPathOf loc := by
    rw [fold_subPathOf hne]
    rfl
  rw [normalizeSubPath_eq,if_neg hnul,if_pos hin,hjoin]

theorem lastPart_subPathOf : Session.lastPart (subPathOf (loc ++ [c])) = fsdecode c.bytes := by
  rw [Session.lastPart,split_subPathOf (by simp)]
  simp [namesOf]

theorem dropLast_split_subPathOf : (split (subPathOf (loc ++ [c]))).dropLast = namesOf loc := by
  rw [split_subPathOf (by simp)]
  simp [namesOf]

end Names

/-- A directory that the owner may list and search. -/
def OpenAt (t : Node) (loc : Loc) : Prop :=
  ∃ a es, t.get loc = some (.dir a es) ∧ a.mode.read = true ∧ a.mode.search = true

/-- Every directory from one place down to another one is open. -/
def OpenWay (t : Node) (k : Loc) : Loc → Prop
  | [] => OpenAt t k
  | c :: loc => OpenAt t k ∧ c.bytes.length ≤ nameMax ∧ OpenWay t (k ++ [c]) loc

section Way
variable {t : Node} {k loc : Loc} {w : World} {fd : ℕ}

theorem OpenWay.openAt (h : OpenWay t k loc) : OpenAt t k := by
  cases loc with
  | nil => exact h
  | cons c loc => exact h.1

/-- The walk has listed every directory on the way to a file. -/
theorem Seen.openWay {prefixLength : ℕ} {c : Name} {st : StatResult} (ht : Stored t)
    (h : Seen prefixLength t (loc ++ [c]) st) : OpenWay t [] loc := by
  obtain ⟨n,hget,-,-⟩ := h.file
  have hshort := ht.short_of_get hget
  have hopen (k : Loc) (d : Name) (hk : k ++ [d] <+: loc ++ [c]) : OpenAt t k := by
    obtain ⟨a,es,hdir,hsearch⟩ := h.searched k d hk
    rw [List.nil_append] at hdir
    exact ⟨a,es,hdir,h.listed k d a es hk hdir,hsearch⟩
  have hway (k r : Loc) (hloc : loc = k ++ r) : OpenWay t k r := by
    induction r generalizing k with
    | nil =>
      rw [List.append_nil] at hloc
      exact hopen k c (hloc ▸ List.prefix_rfl)
    | cons d r ih =>
      refine ⟨hopen k d ?_,hshort d ?_,ih (k ++ [d]) (by simp [hloc])⟩
      · rw [hloc]
        exact ⟨r ++ [c],by simp⟩
      · rw [hloc]
        simp
  exact hway [] loc rfl

/-- An open directory is opened by its name. -/
theorem ends_openChild {cls : OSErrorClass} {c : Name}
    {Q : Except (Exc AppError) ℕ → World → Prop} (henv : w.env.Reliable) (hfd : w.Has fd k)
    (hk : OpenAt w.root k) (hc : c.bytes.length ≤ nameMax) (hchild : OpenAt w.root (k ++ [c]))
    (hok : ∀ v, w.Opened (k ++ [c]) v → v.root = w.root → Q (.ok w.nextFd) v) :
    (Session.mapErrno [.eloop,.enotdir] cls
      (Os.open_ (fsdecode c.bytes) Session.dirFlags Session.dirMode (some fd))).Ends w Q := by
  obtain ⟨a,es,hdir,-,hsearch⟩ := hk
  obtain ⟨b,bs,hb,hread,-⟩ := hchild
  have hname := nameOf_fsdecode c hc
  have hopens : World.openNode (.dir b bs) Session.dirFlags = .ok () :=
    Session.openNode_dirFlags.mpr ⟨b,bs,rfl,hread⟩
  rw [Node.get_entry hdir] at hb
  refine Session.ends_mapErrno (Os.ends_open (henv _ _ (by decide)) (component_fsdecode c) hfd hdir
    hsearch rfl rfl (fun hnone => ?_) (fun d e hd he => ?_) fun d n v hd _ _ hv hroot => ?_)
  · cases hname.symm.trans hnone
  · cases hname.symm.trans hd
    rw [hb] at he
    change World.openNode (.dir b bs) Session.dirFlags = _ at he
    rw [hopens] at he
    cases he
  · cases hname.symm.trans hd
    exact hok v hv hroot

theorem ends_openChildPart {c : Name} {Q : Except (Exc AppError) ℕ → World → Prop}
    (henv : w.env.Reliable) (hfd : w.Has fd k) (hk : OpenAt w.root k)
    (hc : c.bytes.length ≤ nameMax) (hchild : OpenAt w.root (k ++ [c]))
    (hok : ∀ v, v.root = w.root → w.Keeps fd v → v.Has w.nextFd (k ++ [c]) → Q (.ok w.nextFd) v) :
    (Session.openPart false fd (fsdecode c.bytes)).Ends w Q := by
  change Program.Ends ((Session.mapErrno _ _ _) >>= fun nextFd => Os.close fd >>= fun _ =>
    pure nextFd) w Q
  have hlt := hfd.lt
  refine Program.Ends.bind (R := fun r v => r = .ok w.nextFd ∧ w.Opened (k ++ [c]) v ∧
    v.root = w.root) ?_ ?_ fun _ _ h => (nomatch h.1)
  · exact ends_openChild henv hfd hk hc hchild fun v hv hroot => ⟨rfl,hv,hroot⟩
  · rintro _ v ⟨⟨⟩,hv,hroot⟩
    refine Program.Ends.bind (R := fun r u => r = .ok () ∧ v.Closed fd u) ?_ ?_
      fun _ _ h => (nomatch h.1)
    · exact Os.ends_close_reliable (hv.keeps.env ▸ henv) (hv.keeps.has hfd) fun u hu => ⟨rfl,hu⟩
    · rintro _ u ⟨-,hu⟩
      refine hok u (hu.root.trans hroot) ?_ (hu.has (by omega) hv.has)
      exact (hv.keeps.mono hlt.le).trans (hu.keeps le_rfl)

/-- The walk of `_open_parent` along open directories ends in the last one. -/
theorem ends_openWay {α : Type} [Owning α] {body : ℕ → Api α}
    {Q : Except (Exc AppError) α → World → Prop} (henv : w.env.Reliable)
    (hway : OpenWay w.root k loc) (hfd : w.Has fd k)
    (hbody : ∀ fd' v, v.root = w.root → w.Keeps fd v → fd ≤ fd' → v.Has fd' (k ++ loc) →
      (body fd').Ends v fun r u => v.Keeps v.nextFd u ∧ ∀ x, u.Closed fd' x → Q r x) :
    (Session.openParts false body fd (namesOf loc)).Ends w Q := by
  induction loc generalizing w fd k with
  | nil =>
    have hhas : w.Has fd (k ++ []) := by rwa [List.append_nil]
    refine (hbody fd w rfl (.refl _ _) le_rfl hhas).ensureOrDrop fun r u hu => ?_
    exact Os.ends_close_reliable (hu.1.env ▸ henv) (hu.1.has hfd) fun x hx => ⟨rfl,hu.2 x hx⟩
  | cons c loc ih =>
    obtain ⟨hk,hc,hrest⟩ := hway
    have hlt := hfd.lt
    refine Program.Ends.bind (R := fun r v => r = .ok w.nextFd ∧ v.root = w.root ∧ w.Keeps fd v ∧
      v.Has w.nextFd (k ++ [c])) ?_ ?_ fun _ _ h => (nomatch h.1)
    · refine Program.Ends.onError (R := fun r v => r = .ok w.nextFd ∧ v.root = w.root ∧
        w.Keeps fd v ∧ v.Has w.nextFd (k ++ [c])) ?_ (fun _ _ h => h) fun _ _ h => (nomatch h.1)
      exact ends_openChildPart henv hfd hk hc hrest.openAt
        fun v hroot hkeeps hhas => ⟨rfl,hroot,hkeeps,hhas⟩
    · rintro _ v ⟨⟨⟩,hroot,hkeeps,hhas⟩
      refine ih (hkeeps.env ▸ henv) (hroot ▸ hrest) hhas fun fd' u hu hk' hle hh => ?_
      refine hbody fd' u (hu.trans hroot) (hkeeps.trans (hk'.mono hlt.le)) (by omega) ?_
      rwa [List.append_assoc,List.singleton_append] at hh

/-- `_open_parent` of a file in an open directory. -/
theorem ends_openParentWay {α : Type} [Owning α] {body : ℕ → Str → Api α} {c : Name}
    {Q : Except (Exc AppError) α → World → Prop} (henv : w.env.Reliable)
    (hway : OpenWay w.root [] loc)
    (hbody : ∀ fd v, v.root = w.root → w.Keeps w.nextFd v → w.nextFd ≤ fd → v.Has fd loc →
      (body fd (fsdecode c.bytes)).Ends v fun r u =>
        v.Keeps v.nextFd u ∧ ∀ x, u.Closed fd x → Q r x) :
    (Session.openParent Session.rootDirectory (subPathOf (loc ++ [c])) false body).Ends w Q := by
  obtain ⟨a,es,hroot,hread,-⟩ := hway.openAt
  cases hroot' : w.root with
  | dir b bs =>
    rw [hroot',Node.get_nil] at hroot
    cases hroot
    refine Program.Ends.bind (R := fun r v => r = .ok w.nextFd ∧ w.Opened [] v ∧ v.root = w.root)
      ?_ ?_ fun _ _ h => (nomatch h.1)
    · exact Session.ends_openListed henv hroot' hread fun v hv hroot => ⟨rfl,hv,hroot⟩
    · rintro _ v ⟨⟨⟩,hv,hroot⟩
      rw [dropLast_split_subPathOf]
      have hlast : (split (subPathOf (loc ++ [c]))).getLast?.getD [] = fsdecode c.bytes :=
        lastPart_subPathOf
      refine ends_openWay (hv.keeps.env ▸ henv) (hroot ▸ hway) hv.has fun fd u hu hk hle hhas => ?_
      rw [hlast]
      exact hbody fd u (hu.trans hroot) (hv.keeps.trans hk) hle hhas
  | file | symlink | special =>
    rw [hroot',Node.get_nil] at hroot
    cases hroot

end Way

section Read
variable {w : World} {loc : Loc} {c : Name} {a : Attr} {content : Bytes}

theorem ends_openSeen {fd : ℕ} {Q : Except (Exc AppError) ℕ → World → Prop}
    (henv : w.env.Reliable) (hfd : w.Has fd loc) (hloc : OpenAt w.root loc)
    (hc : c.bytes.length ≤ nameMax) (hget : w.root.get (loc ++ [c]) = some (.file a content))
    (hrefuse : a.mode.read = false → ∀ v, w.Quiet v → Q (.error (Os.oserror .eacces)) v)
    (hok : a.mode.read = true →
      ∀ v, w.Opened (loc ++ [c]) v → v.root = w.root → Q (.ok w.nextFd) v) :
    (Session.mapErrno [.eloop,.enxio,.enodev,.enotdir] .fileNotFound
      (Os.open_ (fsdecode c.bytes) Session.readFlags Session.dirMode (some fd))).Ends w Q := by
  obtain ⟨b,bs,hdir,-,hsearch⟩ := hloc
  have hname := nameOf_fsdecode c hc
  rw [Node.get_entry hdir] at hget
  refine Session.ends_mapErrno (Os.ends_open (henv _ _ (by decide)) (component_fsdecode c) hfd hdir
    hsearch rfl rfl (fun hnone => ?_) (fun d e hd he v hv => ?_) fun d n v hd hn ho hv hroot => ?_)
  · cases hname.symm.trans hnone
  · cases hname.symm.trans hd
    rw [hget] at he
    change (if a.mode.read = true then Except.ok () else .error Errno.eacces) = .error e at he
    split_ifs at he with hread
    cases he
    exact hrefuse (by simpa using hread) v hv
  · cases hname.symm.trans hd
    cases hget.symm.trans hn
    change (if a.mode.read = true then Except.ok () else .error Errno.eacces) = .ok () at ho
    split_ifs at ho with hread
    exact hok hread v hv hroot

/-- What reading the walked file at a place comes to. -/
inductive WalkedRead (w : World) (loc : Loc) (a : Attr) (fieldName : Option Str) :
    Except (Exc AppError) Payload → World → Prop
  | opened {payload v} (readable : a.mode.read = true)
    (accepted : w.env.refuses (subPathOf loc) = false)
    (encodable : hasSurrogate (subPathOf loc) = false)
    (header : contentDisposition (subPathOf loc) fieldName = some payload.contentDisposition)
    (has : v.Has payload.fd loc) : WalkedRead w loc a fieldName (.ok payload) v
  | locked {v} (unreadable : a.mode.read = false) :
    WalkedRead w loc a fieldName (.error (Os.oserror .eacces)) v
  | refused {v} (readable : a.mode.read = true) (refuses : w.env.refuses (subPathOf loc) = true) :
    WalkedRead w loc a fieldName (.error .valueError) v
  | surrogate {v} (readable : a.mode.read = true)
    (accepted : w.env.refuses (subPathOf loc) = false)
    (unencodable : hasSurrogate (subPathOf loc) = true) :
    WalkedRead w loc a fieldName (.error .unicodeEncodeError) v

/-- `Session.read_file` of a file in an open directory. -/
theorem ends_readWay (fieldName : Option Str) (henv : w.env.Reliable)
    (hway : OpenWay w.root [] loc) (hloc : OpenAt w.root loc) (hc : c.bytes.length ≤ nameMax)
    (hget : w.root.get (loc ++ [c]) = some (.file a content)) :
    (Session.readFile Session.rootDirectory (subPathOf (loc ++ [c])) fieldName).Ends w fun r v =>
      Session.Still w v ∧ WalkedRead w (loc ++ [c]) a fieldName r v := by
  unfold Session.readFile
  rw [Session.normalize_ok (normalizeSubPath_subPathOf (by simp)),Program.pure_bind]
  refine ends_openParentWay henv hway fun fd v hroot hk hle hhas => ?_
  refine Program.Ends.bind (R := fun r u => u.root = v.root ∧ match r with
    | .error e => v.Quiet u ∧ e = Os.oserror .eacces ∧ a.mode.read = false
    | .ok fd' => fd' = v.nextFd ∧ a.mode.read = true ∧ v.Opened (loc ++ [c]) u) ?_ ?_ ?_
  · refine ends_openSeen (hk.env ▸ henv) hhas (hroot ▸ hloc) hc (hroot ▸ hget) ?_ ?_
    · exact fun hread u hu => ⟨hu.root,hu,rfl,hread⟩
    · exact fun hread u hu huroot => ⟨huroot,rfl,hread,hu⟩
  · rintro _ u ⟨huroot,rfl,hread,hu⟩
    have henvs : u.env = w.env := hu.keeps.env.trans hk.env
    have hshut {y x : World} (hy : u.Closed v.nextFd y) (hx : y.Closed fd x) :
        Session.Still w x := by
      have hyw : w.Keeps w.nextFd y :=
        (hk.trans (hu.keeps.mono hk.nextFd)).trans (hy.keeps hk.nextFd)
      exact (⟨by rw [hy.root,huroot,hroot],hyw⟩ : Session.Still w y).of_closed hle hx
    refine Session.ends_serveFile (n := .file a content) (hu.keeps.env ▸ hk.env ▸ henv) hu.has
      (by rw [huroot,hroot,hget]) (fun h => nomatch h) (fun _ h => absurd rfl h) ?_ ?_ ?_
    · exact fun _ hrefuses y hy => ⟨hu.keeps.trans (hy.keeps le_rfl),fun x hx =>
        ⟨hshut hy hx,.refused hread (henvs ▸ hrefuses)⟩⟩
    · exact fun _ hrefuses hs y hy => ⟨hu.keeps.trans (hy.keeps le_rfl),fun x hx =>
        ⟨hshut hy hx,.surrogate hread (henvs ▸ hrefuses) hs⟩⟩
    · intro _ hrefuses hs header y hheader hy
      refine ⟨hu.keeps.step (hy.keeps _),fun x hx => ?_⟩
      have hyw : w.Keeps w.nextFd y :=
        (hk.trans (hu.keeps.mono hk.nextFd)).trans (hy.keeps _)
      refine ⟨(⟨by rw [hy.root,huroot,hroot],hyw⟩ : Session.Still w y).of_closed hle hx,?_⟩
      exact .opened hread (henvs ▸ hrefuses) hs hheader
        (hx.has hhas.lt.ne' ((hy.keeps _).has hu.has))
  · rintro _ u ⟨huroot,hu,rfl,hread⟩
    refine ⟨hu.keeps _,fun x hx => ⟨?_,.locked hread⟩⟩
    exact (⟨hu.root.trans hroot,hk.trans (hu.keeps _)⟩ : Session.Still w u).of_closed hle hx

/-- `read_file` opens the very file `n`, and fails only if that or its name cannot be sent. -/
def ReadsStamped (w : World) (p : Str) (fieldName : Option Str) (n : Node) : Prop :=
  (Session.readFile Session.rootDirectory p fieldName).Ends w fun r v =>
    v.root = w.root ∧ match r with
      | .ok payload => v.nodeOf payload.fd = .ok n
      | .error e => e = Os.oserror .eacces ∧ n.attr.mode.read = false ∨
          e = .unicodeEncodeError ∧ hasSurrogate p = true

/-- A payload must be made for the path of a file that may be read. -/
theorem readsStamped_iff {fieldName : Option Str} (hget : w.root.get loc = some (.file a content))
    (h : (Session.readFile Session.rootDirectory (subPathOf loc) fieldName).Ends w fun r v =>
      Session.Still w v ∧ WalkedRead w loc a fieldName r v) :
    ReadsStamped w (subPathOf loc) fieldName (.file a content) ↔
      (a.mode.read = true → w.env.refuses (subPathOf loc) = false) := by
  unfold ReadsStamped
  generalize hrun : Session.readFile Session.rootDirectory (subPathOf loc) fieldName w = run at h
  obtain ⟨r,v⟩ := run
  rw [Program.ends_of_run hrun] at h ⊢
  obtain ⟨hstill,hread⟩ := h
  have hroot := hstill.root
  cases hread with
  | opened readable accepted encodable header has =>
    exact iff_of_true ⟨hroot,Os.nodeOf_eq has (by rw [hroot,hget])⟩ fun _ => accepted
  | locked unreadable =>
    exact iff_of_true ⟨hroot,.inl ⟨rfl,unreadable⟩⟩ (by simp [unreadable])
  | refused readable refuses =>
    exact iff_of_false (by simp [Os.oserror]) (by simp [readable,refuses])
  | surrogate readable accepted unencodable =>
    exact iff_of_true ⟨hroot,.inr ⟨rfl,unencodable⟩⟩ fun _ => accepted

/-- What a walk has come to owns no file object. -/
instance : Owning (Except Errno Loc × Str) := ⟨fun _ => none⟩

/-- Every path the walk yields is in normal form and leads the files API through directories only. It
reads the file that was stamped, unless that file or its name cannot be sent, exactly if a payload
can be made for the name or the file may not be read anyway. -/
theorem walked_file_addressed (w : World) (workDirectory : Bytes) (out : List (Str × StatResult))
    (p : Str) (st : StatResult) (fieldName : Option Str) (henv : w.env.Reliable)
    (ht : Stored w.root) (hout : iterSessionPaths workDirectory w.root = some out)
    (hp : (p,st) ∈ out) :
    normalizeSubPath p = .ok p ∧
      ∃ loc c n, p = subPathOf (loc ++ [c]) ∧ w.root.get (loc ++ [c]) = some n ∧ n.stat = st ∧
        (∀ k, k <+: loc → ∃ a es, w.root.get k = some (.dir a es)) ∧
        ((Session.openParent Session.rootDirectory p false fun fd name v => (.ok (v.locOf fd,name),v)).Ends
          w fun r _ => r = .ok (.ok loc,fsdecode c.bytes)) ∧
        (ReadsStamped w p fieldName n ↔ (n.attr.mode.read = true → w.env.refuses p = false)) := by
  rw [iterSessionPaths_eq ht] at hout
  cases hout
  obtain ⟨loc,hseen,rfl⟩ := (mem_iterSessionFiles ht).mp hp
  obtain ⟨n,hget,hst,hreg⟩ := hseen.file
  obtain rfl | ⟨loc,c,rfl⟩ := List.eq_nil_or_concat' loc
  · cases hget
    have hroot := ht.root
    rw [Node.isDir,hreg] at hroot
    cases hroot
  have hway := hseen.openWay ht
  have hopen : OpenAt w.root loc := by
    obtain ⟨a,es,hdir,hsearch⟩ := hseen.searched loc c List.prefix_rfl
    rw [List.nil_append] at hdir
    exact ⟨a,es,hdir,hseen.listed loc c a es List.prefix_rfl hdir,hsearch⟩
  have hc := ht.short_of_get hget c (by simp)
  refine ⟨normalizeSubPath_subPathOf (by simp),loc,c,n,rfl,hget,hst,fun k hk => ?_,?_,?_⟩
  · obtain ⟨b,bs,hdir,-⟩ := hopen
    obtain ⟨m,hm⟩ := exists_get_of_prefix hdir hk
    by_cases heq : k = loc
    · subst heq
      exact ⟨b,bs,hdir⟩
    · have := isDir_of_above hk heq hdir hm
      obtain ⟨a,es,rfl⟩ := Node.eq_dir this
      exact ⟨a,es,hm⟩
  · refine ends_openParentWay henv hway fun fd v _ _ _ hhas =>
      ⟨World.Keeps.refl v.nextFd v,fun x _ => ?_⟩
    change Except.ok (v.locOf fd,fsdecode c.bytes) = _
    rw [hhas.locOf]
  · cases n with
    | file a content => exact readsStamped_iff hget (ends_readWay fieldName henv hway hopen hc hget)
    | dir | symlink | special => cases hreg

/-- A world with the given session tree, in which nothing fails. -/
def worldOf (t : SessionTree) : World :=
  ⟨⟨40,fun _ _ => none,fun n => n,fun _ => 0,fun _ => 0,fun _ => [],fun _ => false,fun _ => false,
    fun _ => false⟩,t.root,[],3,0,[]⟩

theorem walked_file_addressed_fileInDirectory : ∃ n, n.stat = ⟨.regular,3,1,0,0⟩ ∧
    ReadsStamped (worldOf (fileInDirectory ⟨true,true,true⟩)) (lit "d/f") none n := by
  have hout : iterSessionPaths [0x2F,0x73] (worldOf (fileInDirectory ⟨true,true,true⟩)).root =
      some [(lit "d/f",⟨.regular,3,1,0,0⟩)] := by decide
  obtain ⟨-,loc,c,n,-,-,hst,-,-,hread⟩ :=
    walked_file_addressed (worldOf (fileInDirectory ⟨true,true,true⟩)) [0x2F,0x73] _
      (lit "d/f") ⟨.regular,3,1,0,0⟩ none (fun _ _ _ => rfl) (fileInDirectory _).stored hout
      List.mem_cons_self
  exact ⟨n,hst,hread.mpr fun _ => rfl⟩

/-- A session with the file `[x` in the directory of the name of a line end in the directory `a:`. To
`urlparse` its path is a URL with a host that lacks its closing bracket. -/
def urlTree : SessionTree where
  root := .dir ⟨1,⟨true,true,true⟩,0,0,0⟩ [(⟨[0x61,0x3A],by decide⟩,.dir ⟨2,⟨true,true,true⟩,0,0,0⟩
    [(⟨[0x0A],by decide⟩,.dir ⟨3,⟨true,true,true⟩,0,0,0⟩
      [(⟨[0x5B,0x78],by decide⟩,.file ⟨4,⟨true,true,false⟩,0,0,0⟩ [0x78])])])]
  stored := .dir (by simp) (by simp [nameMax]) fun e he _ => by
    rw [List.mem_singleton.mp he]
    refine .dir (by simp) (by simp [nameMax]) fun e he _ => ?_
    rw [List.mem_singleton.mp he]
    exact .dir (by simp) (by simp [nameMax]) (by simp [Node.isDir,Node.type])

/-- Its world, where no payload is made for that path. -/
def urlWorld : World := {worldOf urlTree with
  env := {(worldOf urlTree).env with refuses := fun p => p = lit "a:/\n/[x"}}

/-- Reading a walked file fails for its name, although that can be encoded. -/
theorem walked_file_refused : ¬∀ (w : World) (workDirectory : Bytes) (out : List (Str × StatResult))
    (p : Str) (st : StatResult) (fieldName : Option Str), w.env.Reliable → Stored w.root →
      iterSessionPaths workDirectory w.root = some out → (p,st) ∈ out →
        ∃ n, n.stat = st ∧ ReadsStamped w p fieldName n := by
  intro hclaim
  have hout : iterSessionPaths [0x2F,0x73] urlWorld.root =
      some [(lit "a:/\n/[x",⟨.regular,4,1,0,0⟩)] := by decide
  obtain ⟨n,-,hread⟩ := hclaim urlWorld [0x2F,0x73] _ (lit "a:/\n/[x") ⟨.regular,4,1,0,0⟩ none
    (fun _ _ _ => rfl) urlTree.stored hout List.mem_cons_self
  have hrun : (Session.readFile Session.rootDirectory (lit "a:/\n/[x") none urlWorld).1 =
      .error .valueError := by decide +kernel
  unfold ReadsStamped Program.Ends at hread
  rw [hrun] at hread
  simp [Os.oserror] at hread

end Read

end CodeExecutorApi
