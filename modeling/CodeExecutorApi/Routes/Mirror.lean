import CodeExecutorApi.Posix.Disk
import CodeExecutorApi.Routes.Delivery
import CodeExecutorApi.Routes.Streaming

/-! A client that keeps a copy of the files of its session and follows the responses to its
executions: whatever the code that is executed does to the disk, the copy is exact. -/
namespace CodeExecutorApi
open Python Posix Machine

section Get
variable {w : World} {loc : Loc} {a : Attr} {content : Bytes} {prefixLength : ℕ} {st : StatResult}

/-- How `handle_get_file` ends for a file that the walk comes to. -/
def Sent (w : World) (loc : Loc) (a : Attr) : Except (Exc AppError) Response → World → Prop
  | .ok (.content payload),v => Session.Still w v ∧ WalkedRead w loc a none (.ok payload) v
  | .ok _,_ => False
  | .error e,v => Session.Still w v ∧ WalkedRead w loc a none (.error e) v

/-- A GET delivers a file that the walk comes to, exactly if a payload can be made for its path and
it can be sent. -/
theorem serve_seen (henv : w.env.Reliable) (ht : Stored w.root)
    (hseen : Seen prefixLength w.root loc st) (hget : w.root.get loc = some (.file a content))
    (body : Bytes) :
    (serve (handleGetFile Session.rootDirectory (subPathOf loc)) w).1 = .body body ↔
      w.env.refuses (subPathOf loc) = false ∧ served w.root (subPathOf loc) = .ok body := by
  have hloc : loc ≠ [] := by
    rintro rfl
    have hroot := ht.root
    rw [Option.some.inj hget] at hroot
    cases hroot
  have hstrip : strip (subPathOf loc) ≠ [] := strip_ne_nil (normalizeSubPath_subPathOf hloc)
  have hdone : (handleGetFile Session.rootDirectory (subPathOf loc)).Ends w (Sent w loc a) := by
    unfold handleGetFile
    rw [if_neg hstrip]
    have hbody : (do
        let content ← Session.readFile Session.rootDirectory (subPathOf loc) none
        return .content content : Api Response).Ends w (Sent w loc a) := by
      refine Program.Ends.bind (ends_readSeen none henv ht hseen hget) ?_ fun e v h => h
      exact fun payload v h => h
    refine Program.Ends.handle (Program.Ends.handle hbody (fun _ _ h => h) ?_) (fun _ _ h => h) ?_
    all_goals
      rintro e v ⟨hv,hread⟩
      cases hread with
      | locked unreadable => exact ⟨hv,.locked unreadable⟩
      | refused readable refuses => exact ⟨hv,.refused readable refuses⟩
      | surrogate readable accepted unencodable => exact ⟨hv,.surrogate readable accepted unencodable⟩
  have hserved := served_of_get ht hget
  refine serve_eq (Q := fun reply _ => reply = .body body ↔
    w.env.refuses (subPathOf loc) = false ∧ served w.root (subPathOf loc) = .ok body)
    (hdone.mono fun r v h => ?_)
  cases r with
  | ok response =>
    cases response with
    | content payload =>
      obtain ⟨hv,hread⟩ := h
      cases hread with
      | opened readable accepted encodable header has =>
        rw [if_neg (by simp [readable]),if_neg (by simp [encodable])] at hserved
        refine Program.Ends.ensure (R := fun r u => r = .ok (.body content) ∧ u = v) ?_ ?_
        · refine Program.Ends.bind (R := fun r u => r = .ok content ∧ u = v) ?_ ?_
            fun _ _ h => by cases h.1
          · exact Os.ends_read has (by rw [hv.root,hget]) ⟨rfl,rfl⟩
          · rintro _ u ⟨⟨⟩,rfl⟩
            exact ⟨rfl,rfl⟩
        · rintro _ u ⟨rfl,rfl⟩
          refine Os.ends_close_reliable (hv.keeps.env ▸ henv) has fun x hx => ⟨rfl,_,rfl,?_⟩
          rw [hserved]
          simp [accepted]
    | json | noContent | error => exact h.elim
  | error e =>
    obtain ⟨hv,hread⟩ := h
    cases hread with
    | locked unreadable =>
      rw [hserved,if_pos unreadable]
      exact iff_of_false (by simp [answerTo,Os.oserror]) (by simp)
    | refused readable refuses => exact iff_of_false (by simp [answerTo]) (by simp [refuses])
    | surrogate readable accepted unencodable =>
      rw [hserved,if_neg (by simp [readable]),if_pos unencodable]
      exact iff_of_false (by simp [answerTo]) (by simp)

end Get

/-- A client's copy of the files of a session. -/
abbrev Mirror := Str → Option Bytes

/-- What a client gets by a GET. -/
def fetched (w : World) (p : Str) : Option Bytes :=
  match (serve (handleGetFile Session.rootDirectory p) w).1 with
  | .body content => some content
  | _ => none

/-- The copy after a response: what was deleted is dropped, what was attached is taken over, and
what was omitted is fetched. -/
def Mirror.follow (m : Mirror) (w : World) : ExecuteResponse → Mirror
  | .mixed _ deletedFiles omittedFiles payloads => fun p =>
    if p ∈ deletedFiles then none
    else
      match (payloads.filterMap (partOf w)).lookup p with
      | some content => some content
      | none => if p ∈ omittedFiles then fetched w p else m p
  | .error .. => m

/-- The session shows the file `content` at `p`: the walk comes to it, a payload can be made for its
path, and it can be sent. -/
def ShowsFile (refuses : Str → Bool) (prefixLength : ℕ) (t : Node) (p : Str) (content : Bytes) :
    Prop :=
  ∃ loc a, Seen prefixLength t loc (Node.file a content).stat ∧
    t.get loc = some (.file a content) ∧ p = subPathOf loc ∧
      refuses p = false ∧ served t p = .ok content

/-- A client that begins with an exact copy and follows each execution, as long as it gets a report
of it. The disk is the kernel's view of the session, whose directory is `root`. When an execution
begins, the clock has gone on since the last change. -/
inductive Followed (limits : Limits) (root : ℕ) : Disk → World → Mirror → Prop
  | start {d w m} (reliable : w.env.Reliable) (stored : Stored w.root) (shows : d.Shows root w.root)
      (exact : ∀ p content, m p = some content ↔
        ShowsFile w.env.refuses limits.prefixLength w.root p content) :
      Followed limits root d w m
  | wait {d w m} (followed : Followed limits root d w m) (ns : ℕ) :
      Followed limits root {d with clock := d.clock+ns} w m
  | execute {d d' w w' m host response h} (followed : Followed limits root d w m)
      (settled : ∀ loc n, w.root.get loc = some n → n.attr.ctimeNs < d.clock)
      (run : Run Disk.step d h d') (shows : d'.Shows root (host.code w.root))
      (stored : Stored (host.code w.root))
      (done : CodeExecutorApi.execute limits Session.rootDirectory host w = (.ok response,w')) :
      Followed limits root d' w' (m.follow w' response)

section Report
variable {refuses : Str → Bool} {w : World} {t t' : SessionTree} {p : Str} {content : Bytes}
  {prefixLength : ℕ}

/-- What the walk comes to at a path. -/
theorem file_of_key (h : p ∈ (t.files prefixLength).keys) : ∃ loc a content,
    Seen prefixLength t.root loc (Node.file a content).stat ∧
      t.root.get loc = some (.file a content) ∧ p = subPathOf loc := by
  obtain ⟨loc,st,hseen,hp⟩ := SessionTree.mem_files.mp h
  obtain ⟨n,hget,rfl,hreg⟩ := hseen.file
  cases n with
  | file a content => exact ⟨loc,a,content,hseen,hget,hp⟩
  | dir | symlink | special => cases hreg

theorem ShowsFile.key (h : ShowsFile refuses prefixLength t.root p content) :
    p ∈ (t.files prefixLength).keys := by
  obtain ⟨loc,a,hseen,-,hp,-⟩ := h
  exact SessionTree.mem_files.mpr ⟨loc,_,hseen,hp⟩

/-- At a path that the walk comes to, the session shows what is served. -/
theorem showsFile_iff_served (h : p ∈ (t.files prefixLength).keys) :
    ShowsFile refuses prefixLength t.root p content ↔
      refuses p = false ∧ served t.root p = .ok content := by
  constructor
  · rintro ⟨-,-,-,-,-,h⟩
    exact h
  · rintro ⟨hrefuses,hserved⟩
    obtain ⟨loc,a,content',hseen,hget,rfl⟩ := file_of_key h
    have hsame := served_of_get t.stored hget
    rw [hserved] at hsame
    split_ifs at hsame
    cases hsame
    exact ⟨loc,a,hseen,hget,rfl,hrefuses,hserved⟩

/-- A run changes what a path shows only if the report names the path. -/
theorem showsFile_unnamed {d d' : Disk} {h : List (Disk × DiskCall)} {root : ℕ}
    (run : Run Disk.step d h d') (hshows : d.Shows root t.root) (hshows' : d'.Shows root t'.root)
    (settled : ∀ loc n, t.root.get loc = some n → n.attr.ctimeNs < d.clock)
    (hchanged : ¬Changed (t.files prefixLength) (t'.files prefixLength) p)
    (hdeleted : ¬Deleted (t.files prefixLength) (t'.files prefixLength) p) :
    ShowsFile refuses prefixLength t.root p content ↔
      ShowsFile refuses prefixLength t'.root p content := by
  by_cases hkey : p ∈ (t.files prefixLength).keys
  · have hkey' : p ∈ (t'.files prefixLength).keys := by
      by_contra hno
      exact hdeleted ⟨hkey,hno⟩
    rw [showsFile_iff_served hkey,showsFile_iff_served hkey']
    obtain ⟨st,hst⟩ := Dict.mem_keys_iff.mp hkey
    obtain ⟨st',hst'⟩ := Dict.mem_keys_iff.mp hkey'
    have hsignature : signature st = signature st' := by
      by_contra hne
      exact hchanged ⟨st',hst',by simpa [hst] using hne⟩
    obtain ⟨loc,hseen,rfl⟩ := (mem_iterSessionFiles t.stored).mp (Dict.get_eq_some_iff.mp hst)
    obtain ⟨loc',hseen',hp⟩ := (mem_iterSessionFiles t'.stored).mp (Dict.get_eq_some_iff.mp hst')
    obtain ⟨n,hget,rfl,hreg⟩ := hseen.file
    obtain ⟨n',hget',rfl,hreg'⟩ := hseen'.file
    cases SessionTree.eq_of_regular hget hreg hget' hreg' hp
    cases n with
    | dir | symlink | special => cases hreg
    | file a c =>
      cases n' with
      | dir | symlink | special => cases hreg'
      | file a' c' =>
        have hino : a.ino = a'.ino := congrArg Signature.ino hsignature
        have hctime : a.ctimeNs = a'.ctimeNs := congrArg Signature.ctimeNs hsignature
        obtain ⟨rfl,rfl⟩ := Disk.same_file run hshows hshows' hget hget' hino.symm hctime.symm
          (settled loc _ hget)
        rw [served_of_get t.stored hget,served_of_get t'.stored hget']
  · have hkey' : p ∉ (t'.files prefixLength).keys := by
      intro hkey'
      obtain ⟨st',hst'⟩ := Dict.mem_keys_iff.mp hkey'
      refine hchanged ⟨st',hst',?_⟩
      cases hst : (t.files prefixLength).get p with
      | none => simp
      | some st => exact absurd (Dict.mem_keys_iff.mpr ⟨st,hst⟩) hkey
    exact iff_of_false (fun h => hkey h.key) fun h => hkey' h.key

/-- The split of a report: what it attaches is served, and what changed is attached or omitted. -/
theorem report_split (before after : Dict Str StatResult)
    (readFile : Str → Except ReadRefusal Bytes) (maxAttachments : ℕ) :
    (∀ part ∈ (report readFile maxAttachments before after).attachments,
      Changed before after part.subPath ∧ readFile part.subPath = .ok part.payload) ∧
    (∀ p ∈ (report readFile maxAttachments before after).omittedFiles, Changed before after p) ∧
    (∀ p, Changed before after p →
      p ∈ (report readFile maxAttachments before after).attachments.map Attachment.subPath ∨
        p ∈ (report readFile maxAttachments before after).omittedFiles) ∧
    ∀ p, p ∈ (report readFile maxAttachments before after).deletedFiles ↔
      Deleted before after p := by
  obtain ⟨taken,rest,hfold,hsplit⟩ := splitFile_foldl readFile maxAttachments
    (collectChanges (ExecutionEnvironment.init before) after).1 ⟨[],[]⟩
  have hreport : report readFile maxAttachments before after =
      ⟨taken,rest,(collectChanges (ExecutionEnvironment.init before) after).2⟩ := by
    simp only [report,splitChanged]
    rw [hfold]
    rfl
  have hmem (p : Str) : p ∈ taken.map Attachment.subPath ++ rest ↔ Changed before after p := by
    rw [hsplit.perm.mem_iff,mem_changedFiles]
  rw [hreport]
  refine ⟨fun part hpart => ⟨?_,hsplit.opened part hpart⟩,fun p hp => ?_,fun p hp => ?_,
    mem_deletedFiles before after⟩
  · exact (hmem _).mp (List.mem_append_left _ (List.mem_map_of_mem hpart))
  · exact (hmem _).mp (List.mem_append_right _ hp)
  · exact List.mem_append.mp ((hmem _).mpr hp)

theorem lookup_attachments {parts : List (Attachment Bytes)}
    {readFile : Str → Except ReadRefusal Bytes}
    (hopened : ∀ part ∈ parts, readFile part.subPath = .ok part.payload) (p : Str) :
    (parts.map fun part => (part.subPath,part.payload)).lookup p =
      if p ∈ parts.map Attachment.subPath then (readFile p).toOption else none := by
  induction parts with
  | nil => rfl
  | cons part parts ih =>
    have ih := ih fun part hpart => hopened part (List.mem_cons_of_mem _ hpart)
    rw [List.map_cons,List.map_cons,List.lookup_cons]
    by_cases hp : p = part.subPath
    · subst hp
      simp [hopened part List.mem_cons_self,Except.toOption]
    · rw [beq_false_of_ne hp,ih]
      simp [hp]

theorem filterMap_partOf {payloads : List Payload} {parts : List (Attachment Bytes)}
    (h : Receives w payloads parts) : payloads.filterMap (partOf w) =
      parts.map fun part => (part.subPath,part.payload) := by
  have hid : payloads.filterMap (partOf w) = (payloads.map (partOf w)).filterMap id := by
    rw [List.filterMap_map]
    rfl
  rw [hid,h.told,List.filterMap_map]
  exact congrFun List.filterMap_eq_map parts

end Report

section OneFile
open ServedSession
variable {d : Disk} {mtimeNs : ℤ} {bytes : Bytes} {loc : Loc} {n : Node}

theorem child_oneFile (c : Name) : (oneFile mtimeNs bytes).child c =
    if c = ⟨[0x66],isName_f⟩ then some (.file ⟨1,⟨true,true,false⟩,0,mtimeNs,mtimeNs⟩ bytes)
    else none := lookup_cons_ite ..

theorem get_oneFile (hget : (oneFile mtimeNs bytes).get loc = some n) :
    loc = [] ∧ n = oneFile mtimeNs bytes ∨ loc = [⟨[0x66],isName_f⟩] ∧
      n = .file ⟨1,⟨true,true,false⟩,0,mtimeNs,mtimeNs⟩ bytes := by
  cases loc with
  | nil => exact .inl ⟨rfl,(Option.some.inj hget).symm⟩
  | cons c loc =>
    obtain ⟨e,he,hget⟩ := Option.bind_eq_some_iff.mp hget
    rw [child_oneFile] at he
    split_ifs at he with hc
    cases he
    cases loc with
    | nil => exact .inr ⟨by rw [hc],(Option.some.inj hget).symm⟩
    | cons => cases hget

theorem stored_oneFile : Stored (oneFile mtimeNs bytes) := by
  refine .dir (by simp) ?_ fun e he hdir => ?_
  · simp [nameMax]
  · cases List.mem_singleton.mp he
    cases hdir

/-- A disk with the inodes of the session shows it. -/
theorem shows_oneFile
    (hroot : d.inodes 0 = some ⟨Session.dirMode,0,0,0,.dir [(⟨[0x66],isName_f⟩,1)]⟩)
    (hfile : d.inodes 1 = some ⟨⟨true,true,false⟩,0,mtimeNs,mtimeNs,.file bytes⟩) :
    d.Shows 0 (oneFile mtimeNs bytes) := by
  intro loc
  cases loc with
  | nil =>
    simp only [Disk.resolve,hroot,Option.map_some]
    exact .some (show Inode.Is _ (oneFile mtimeNs bytes) from ⟨rfl,_,rfl,rfl⟩)
  | cons c loc =>
    simp only [Disk.resolve,hroot,Node.get,child_oneFile,lookup_cons_ite]
    split_ifs with hc
    · cases loc with
      | nil =>
        simp only [Disk.resolve,hfile,Option.map_some,Option.bind_some]
        exact .some ⟨rfl,rfl⟩
      | cons =>
        simp only [Disk.resolve,hfile,Option.bind_some]
        exact .none
    · exact .none

/-- The disk of the session with one file, five units later. -/
def oneFileDisk : Disk where
  inodes
    | 0 => some ⟨Session.dirMode,0,0,0,.dir [(⟨[0x66],isName_f⟩,1)]⟩
    | 1 => some ⟨⟨true,true,false⟩,0,0,0,.file [1,2]⟩
    | _ => none
  clock := 5

end OneFile

section Follow
open ServedSession
variable {limits : Limits} {host : Host} {root : ℕ} {d d' : Disk} {w w' : World} {m : Mirror}
  {response : ExecuteResponse} {h : List (Disk × DiskCall)} {p : Str} {content : Bytes}

/-- What a client fetches of a path that the walk comes to is what the session shows there. -/
theorem fetched_eq {t : SessionTree} {prefixLength : ℕ} (henv : w.env.Reliable)
    (hroot : w.root = t.root) (hkey : p ∈ (t.files prefixLength).keys) :
    fetched w p = some content ↔ ShowsFile w.env.refuses prefixLength t.root p content := by
  obtain ⟨loc,a,content',hseen,hget,rfl⟩ := file_of_key hkey
  rw [showsFile_iff_served hkey]
  have hserve (body : Bytes) := serve_seen henv (hroot ▸ t.stored) (hroot ▸ hseen) (hroot ▸ hget) body
  rw [hroot] at hserve
  rw [← hserve content,fetched]
  split
  next body hbody => simp [hbody]
  next hno => exact iff_of_false (by simp) (hno content)

/-- What following a response makes of a path. -/
theorem follow_mixed {result : ExecutionResult} {deletedFiles omittedFiles : List Str}
    {payloads : List Payload} {parts : List (Attachment Bytes)}
    {readFile : Str → Except ReadRefusal Bytes} (hreceives : Receives w payloads parts)
    (hopened : ∀ part ∈ parts, readFile part.subPath = .ok part.payload) :
    m.follow w (.mixed result deletedFiles omittedFiles payloads) p =
      if p ∈ deletedFiles then none
      else if p ∈ parts.map Attachment.subPath then (readFile p).toOption
      else if p ∈ omittedFiles then fetched w p
      else m p := by
  simp only [Mirror.follow]
  rw [filterMap_partOf hreceives,lookup_attachments hopened]
  by_cases hpart : p ∈ parts.map Attachment.subPath
  · rw [if_pos hpart,if_pos hpart]
    obtain ⟨part,hmem,rfl⟩ := List.mem_map.mp hpart
    rw [hopened part hmem]
    rfl
  · rw [if_neg hpart,if_neg hpart]

/-- An execution keeps the copy exact. -/
theorem follow_exact (t t' : SessionTree) (henv : w.env.Reliable) (hroot : w.root = t.root)
    (hran : host.code w.root = t'.root) (hshows : d.Shows root t.root)
    (settled : ∀ loc n, t.root.get loc = some n → n.attr.ctimeNs < d.clock)
    (run : Run Disk.step d h d') (hshows' : d'.Shows root t'.root)
    (done : execute limits Session.rootDirectory host w = (.ok response,w'))
    (hexact : ∀ p content, m p = some content ↔
      ShowsFile w.env.refuses limits.prefixLength t.root p content) :
    w'.env = w.env ∧ w'.root = t'.root ∧ ∀ p content, m.follow w' response p = some content ↔
      ShowsFile w.env.refuses limits.prefixLength t'.root p content := by
  obtain ⟨hkeep,hroot',result,payloads,rfl,hreceives⟩ :=
    (Program.ends_of_run done).mp (ends_execute_report t t' henv hroot hran) response rfl
  have henv' : w'.env.Reliable := hkeep ▸ henv
  obtain ⟨hattached,homitted,hnamed,hdeleted⟩ := report_split (t.files limits.prefixLength)
    (t'.files limits.prefixLength) (served t'.root) limits.maxResultAttachments
  refine ⟨hkeep,hroot',fun p content => ?_⟩
  have hkey (hp : Changed (t.files limits.prefixLength) (t'.files limits.prefixLength) p) :
      p ∈ (t'.files limits.prefixLength).keys := by
    obtain ⟨st,hst,-⟩ := hp
    exact Dict.mem_keys_iff.mpr ⟨st,hst⟩
  rw [follow_mixed hreceives fun part hpart => (hattached part hpart).2]
  split_ifs with hgone hpart homit
  · exact iff_of_false (by simp) fun hholds => ((hdeleted p).mp hgone).2 hholds.key
  · obtain ⟨part,hmem,rfl⟩ := List.mem_map.mp hpart
    have haccepted := hreceives.accepted part hmem
    rw [hkeep] at haccepted
    rw [showsFile_iff_served (hkey (hattached part hmem).1),(hattached part hmem).2]
    simp [haccepted,Except.toOption]
  · rw [fetched_eq henv' hroot' (hkey (homitted p homit)),hkeep]
  · have hchanged : ¬Changed (t.files limits.prefixLength) (t'.files limits.prefixLength) p :=
      fun h => (hnamed p h).elim hpart homit
    have hkept : ¬Deleted (t.files limits.prefixLength) (t'.files limits.prefixLength) p :=
      fun h => hgone ((hdeleted p).mpr h)
    rw [hexact,showsFile_unnamed run hshows hshows' settled hchanged hkept]

/-- A client that follows the executions has what the session shows and nothing else. -/
theorem followed_iff (hfollowed : Followed limits root d w m) (p : Str) (content : Bytes) :
    m p = some content ↔ ShowsFile w.env.refuses limits.prefixLength w.root p content := by
  suffices h : w.env.Reliable ∧ Stored w.root ∧ d.Shows root w.root ∧ ∀ p content,
      m p = some content ↔ ShowsFile w.env.refuses limits.prefixLength w.root p content from
    h.2.2.2 p content
  induction hfollowed with
  | start reliable stored shows exact => exact ⟨reliable,stored,shows,exact⟩
  | wait followed ns ih =>
    obtain ⟨henv,ht,hshows,hexact⟩ := ih
    exact ⟨henv,ht,hshows.wait _,hexact⟩
  | execute followed settled run shows stored done ih =>
    obtain ⟨henv,ht,hshows,hexact⟩ := ih
    obtain ⟨hkeep,hroot',hexact'⟩ := follow_exact ⟨_,ht⟩ ⟨_,stored⟩ henv rfl rfl
      hshows settled run shows done hexact
    rw [hroot',hkeep]
    exact ⟨henv,stored,shows,hexact'⟩

/-- The client has what the code wrote. -/
theorem followed_iff_rewritten : ∃ d w m,
    Followed exampleLimits 0 d w m ∧ m (lit "f") = some [3,4] := by
  let t : SessionTree := ⟨oneFile 0 [1,2],stored_oneFile⟩
  have henv : oneFileSession.world.env.Reliable := fun _ _ _ => rfl
  have hstart : Followed exampleLimits 0 oneFileDisk oneFileSession.world fun p =>
      if p ∈ (t.files 0).keys then fetched oneFileSession.world p else none := by
    refine .start henv stored_oneFile (shows_oneFile rfl rfl) fun p content => ?_
    split_ifs with hp
    · exact fetched_eq henv rfl hp
    · exact iff_of_false (by simp) fun hholds => hp (ShowsFile.key (t := t) hholds)
  have hwrite : Run Disk.step oneFileDisk [(oneFileDisk,.write 1 [3,4])] _ := .next .start rfl
  have hok : (execute exampleLimits Session.rootDirectory writingHost oneFileSession.world).1.isOk =
      true := by decide +kernel
  generalize hdone : execute exampleLimits Session.rootDirectory writingHost oneFileSession.world =
    done at hok
  obtain ⟨_ | response,w⟩ := done
  · cases hok
  let t' : SessionTree := ⟨oneFile 5 [3,4],stored_oneFile⟩
  have hreport := (Program.ends_of_run hdone).mp (ends_execute_report t t' henv rfl rfl)
    response rfl
  have hfollowed := hstart.execute (fun loc n hget => ?_) hwrite (shows_oneFile rfl rfl)
    stored_oneFile hdone
  · refine ⟨_,_,_,hfollowed,(followed_iff hfollowed _ _).mpr ?_⟩
    have hkey : lit "f" ∈ (t'.files 0).keys := by decide
    rw [hreport.1,hreport.2.1]
    exact (showsFile_iff_served hkey).mpr ⟨rfl,rfl⟩
  · rcases get_oneFile hget with ⟨rfl,rfl⟩ | ⟨rfl,rfl⟩ <;> decide

end Follow

end CodeExecutorApi
