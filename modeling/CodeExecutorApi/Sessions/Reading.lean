import CodeExecutorApi.Sessions.Walks

/-! What reading a file or listing a directory of a session comes to, as a function of its tree. -/
namespace CodeExecutorApi
open Python Posix Machine

/-- What a normalised path leads to. -/
def find (t : Node) (p : Str) : Except NoWay Node :=
  match dirFrom t [] (split p).dropLast with
  | .error r => .error r
  | .ok loc =>
    match nameOf (Session.lastPart p) with
    | none => .error .badName
    | some c =>
      match t.get (loc ++ [c]) with
      | some n => .ok n
      | none => .error .missing

/-- A file that cannot be served. A payload must be made for the path, and the header of the response
must carry it. -/
def unreadable (refuses : Str → Bool) (p : Str) : Node → Bool
  | .file a _ => !a.mode.read || refuses p || hasSurrogate p
  | .special a _ => !a.mode.read
  | .dir .. | .symlink .. => false

/-- What the code raises then, and for a name that no entry can have. -/
def Refusal (e : Exc AppError) : Prop := IsBadName e ∨ e = Os.oserror .eacces

/-- The entries of a listing. -/
def entry (e : Name × Node) : Session.Entry :=
  ⟨fsdecode e.1.bytes,e.2.stat.type,e.2.stat.size,e.2.stat.mtimeNs⟩

def listingOf (p : Str) (es : List (Name × Node)) : Session.Listing :=
  ⟨p,(es.map entry).mergeSort fun a b => decide (a.name ≤ b.name)⟩

section Find
variable {t n : Node} {p : Str} {loc : Loc}

theorem find_ok (h : find t p = .ok n) : ∃ loc, place (split p) = some loc ∧ t.get loc = some n := by
  unfold find at h
  cases hdir : dirFrom t [] (split p).dropLast with
  | error r =>
    rw [hdir] at h
    cases h
  | ok loc =>
    cases hc : nameOf (Session.lastPart p) with
    | none =>
      rw [hdir,hc] at h
      cases h
    | some c =>
      simp only [hdir,hc] at h
      obtain ⟨q,hq,rfl⟩ := dirFrom_ok hdir
      refine ⟨loc ++ [c],?_,?_⟩
      · rw [Session.split_eq,place_append,hq,hc]
        rfl
      · split at h
        · cases h
          assumption
        · cases h

theorem find_missing (h : find t p = .error .missing) (hloc : place (split p) = some loc) :
    t.get loc = none := by
  obtain ⟨q,c,hq,hc,rfl⟩ := Session.place_split hloc
  unfold find at h
  split at h
  · cases h
    have := get_of_missing ‹_› hq [c] (List.cons_ne_nil c [])
    rwa [List.nil_append] at this
  · rename_i loc hdir
    obtain ⟨q',hq',rfl⟩ := dirFrom_ok hdir
    cases hq.symm.trans hq'
    rw [hc] at h
    dsimp only at h
    split at h
    · cases h
    · assumption

end Find

namespace Session
variable {w : World} {q p : Str}

theorem normalize_ok (hq : normalizeSubPath q = .ok p) : (normalize q : Api Str) = pure p := by
  rw [normalize,hq]

/-- Opening a file to read it. -/
theorem ends_openFile {fd : ℕ} {loc : Loc} {a : Attr} {es : List (Name × Node)} {s : Str}
    {Q : Except (Exc AppError) ℕ → World → Prop} (henv : w.env.Reliable) (ht : Traversable w.root)
    (hs : Component s) (hfd : w.Has fd loc) (hdir : w.root.get loc = some (.dir a es))
    (hbad : nameOf s = none → ∀ e v, w.Quiet v → IsBadName e → Q (.error e) v)
    (hmiss : ∀ c, nameOf s = some c → w.root.get (loc ++ [c]) = none →
      ∀ errno v, w.Quiet v → Q (.error (.os .fileNotFound errno)) v)
    (hgone : ∀ c n, nameOf s = some c → w.root.get (loc ++ [c]) = some n → n.type ≠ .regular →
      n.type ≠ .directory → (∀ refuses p, unreadable refuses p n = false) →
      ∀ errno v, w.Quiet v → Q (.error (.os .fileNotFound errno)) v)
    (hrefuse : ∀ c n, nameOf s = some c → w.root.get (loc ++ [c]) = some n →
      (∀ refuses p, unreadable refuses p n = true) →
      ∀ v, w.Quiet v → Q (.error (Os.oserror .eacces)) v)
    (hok : ∀ c n v, nameOf s = some c → w.root.get (loc ++ [c]) = some n →
      n.type ≠ .symlink → (n.type = .regular → n.attr.mode.read = true) →
      (n.type = .other → ∀ refuses p, unreadable refuses p n = false) →
      w.Opened (loc ++ [c]) v → v.root = w.root → Q (.ok w.nextFd) v) :
    (mapErrno [.eloop,.enxio,.enodev,.enotdir] .fileNotFound
      (Os.open_ s readFlags dirMode (some fd))).Ends w Q := by
  refine ends_mapErrno (Os.ends_open (henv _ _ (by decide)) hs hfd hdir (ht.mode loc a es hdir).2 rfl
    rfl (fun hnone e v hv he => ?_) (fun c e hc he v hv => ?_) fun c n v hc hn ho hv hroot => ?_)
  · change Q (.error (mapped _ .fileNotFound e)) v
    rw [mapped_badName he (by decide)]
    exact hbad hnone e v hv he
  · rw [← Node.get_entry hdir] at he
    cases hn : w.root.get (loc ++ [c]) with
    | none =>
      rw [hn] at he
      cases he
      exact hmiss c hc hn _ v hv
    | some n =>
      rw [hn] at he
      cases n with
      | dir b bs =>
        change (if b.mode.read = true then Except.ok () else .error .eacces) = .error e at he
        rw [if_pos (ht.mode _ b bs hn).1] at he
        cases he
      | symlink =>
        cases he
        exact hgone c _ hc hn nofun nofun (fun _ _ => rfl) _ v hv
      | file b content =>
        change (if b.mode.read = true then Except.ok () else .error .eacces) = .error e at he
        split_ifs at he with hread
        cases he
        exact hrefuse c _ hc hn (fun refuses p => by simp [unreadable,hread]) v hv
      | special b kind =>
        change (if b.mode.read = true then _ else Except.error Errno.eacces) = .error e at he
        split_ifs at he with hread
        · have hun (refuses : Str → Bool) (p : Str) :
              unreadable refuses p (.special b kind) = false := by simp [unreadable,hread]
          split at he <;> cases he
          · exact hgone c _ hc hn nofun nofun hun _ v hv
          · exact hgone c _ hc hn nofun nofun hun _ v hv
        · cases he
          exact hrefuse c _ hc hn (fun refuses p => by simp [unreadable,hread]) v hv
  · have hget := Node.get_entry hdir c
    rw [hn] at hget
    refine hok c n v hc hget ?_ ?_ ?_ hv hroot
    · rintro hlink
      cases n with
      | symlink => cases ho
      | file | dir | special => cases hlink
    · intro hreg
      cases n with
      | file b content =>
        change (if b.mode.read = true then Except.ok () else .error Errno.eacces) = .ok () at ho
        split_ifs at ho with hread
        exact hread
      | symlink | dir | special => cases hreg
    · intro hother refuses p
      cases n with
      | special b kind =>
        change (if b.mode.read = true then _ else .error Errno.eacces) = Except.ok () at ho
        split_ifs at ho with hread
        simp [unreadable,hread]
      | symlink | dir | file => cases hother

/-- Nothing was changed, and whatever was opened first is as it was. -/
structure Still (w v : World) : Prop where
  root : v.root = w.root
  keeps : w.Keeps w.nextFd v

theorem Still.of_quiet {w v u : World} (h : Still w v) (hu : v.Quiet u) : Still w u :=
  ⟨hu.root.trans h.root,h.keeps.step (hu.keeps _)⟩

theorem Still.of_closed {w v u : World} {fd : ℕ} (h : Still w v) (hfd : w.nextFd ≤ fd)
    (hu : v.Closed fd u) : Still w u := ⟨hu.root.trans h.root,h.keeps.trans (hu.keeps hfd)⟩

theorem contentDisposition_isSome (p : Str) (fieldName : Option Str) :
    (contentDisposition p fieldName).isSome = !hasSurrogate p := by
  unfold contentDisposition quote
  cases hs : hasSurrogate p with
  | true => rfl
  | false =>
    obtain ⟨b,hb⟩ := exists_fsencode hs
    rw [hb]
    rfl

/-- The constructor of a payload fails only for its name. -/
theorem ends_ioBasePayload {Q : Except (Exc AppError) Unit → World → Prop}
    (henv : w.env.Reliable)
    (hname : w.env.refuses p = true → ∀ v, w.Quiet v → Q (.error .valueError) v)
    (hok : w.env.refuses p = false → ∀ v, w.Quiet v → Q (.ok ()) v) :
    (ioBasePayload p).Ends w Q := by
  unfold Program.Ends ioBasePayload
  cases hrefuses : w.env.refuses p with
  | true => exact hname hrefuses _ (World.quiet_tick w)
  | false => exact Os.ends_inert henv (by decide) (hok hrefuses)

/-- Only its path keeps an open file from being served: the payload may not be made for it, or the
header cannot carry it. -/
theorem ends_payload {fieldName : Option Str} {fd : ℕ} {loc : Loc}
    {Q : Except (Exc AppError) Payload → World → Prop}
    (henv : w.env.Reliable) (hfd : w.Has fd loc)
    (hname : w.env.refuses p = true → ∀ v, w.Closed fd v → Q (.error .valueError) v)
    (herror : w.env.refuses p = false → hasSurrogate p = true →
      ∀ v, w.Closed fd v → Q (.error .unicodeEncodeError) v)
    (hok : w.env.refuses p = false → hasSurrogate p = false →
      ∀ header v, contentDisposition p fieldName = some header → w.Quiet v →
        Q (.ok ⟨fd,header⟩) v) :
    (CodeExecutorApi.readFile fd p fieldName).Ends w Q := by
  have hsome := contentDisposition_isSome p fieldName
  refine Program.Ends.onError (R := fun r v => w.Quiet v ∧ match r with
    | .error e => ∀ u, w.Closed fd u → Q (.error e) u
    | .ok payload => Q (.ok payload) v) ?_ (fun _ v h => h.2) ?_
  · refine Program.Ends.bind (R := fun r v => r = .ok () ∧ w.Quiet v) ?_ ?_ ?_
    · exact Os.ends_fdopen henv fun v hv => ⟨rfl,hv⟩
    · rintro _ v ⟨-,hv⟩
      refine Program.Ends.bind (R := fun r u => w.Quiet u ∧ match r with
        | .error e => w.env.refuses p = true ∧ e = .valueError
        | .ok _ => w.env.refuses p = false) ?_ ?_ ?_
      · exact ends_ioBasePayload (hv.env ▸ henv)
          (fun hrefuses u hu => ⟨hv.trans hu,hv.env ▸ hrefuses,rfl⟩)
          fun hrefuses u hu => ⟨hv.trans hu,hv.env ▸ hrefuses⟩
      · rintro _ u ⟨hu,hrefuses⟩
        cases hheader : contentDisposition p fieldName with
        | none =>
          rw [hheader] at hsome
          exact ⟨hu,herror hrefuses (by simpa using hsome)⟩
        | some header =>
          rw [hheader] at hsome
          exact ⟨hu,hok hrefuses (by simpa using hsome) header u hheader hu⟩
      · rintro _ u ⟨hu,hrefuses,rfl⟩
        exact ⟨hu,hname hrefuses⟩
    · rintro e v ⟨⟨⟩,_⟩
  · rintro e v ⟨hv,hq⟩
    exact Os.ends_close_reliable (hv.env ▸ henv) ((hv.keeps _).has hfd) fun u hu =>
      ⟨rfl,hq u (hv.closed hu)⟩

/-- An open entry is served if it is a regular file. -/
theorem ends_serveFile {fieldName : Option Str} {fd : ℕ} {loc : Loc} {n : Node}
    {Q : Except (Exc AppError) Payload → World → Prop} (henv : w.env.Reliable)
    (hfd : w.Has fd loc) (hn : w.root.get loc = some n)
    (hdir : n.type = .directory → ∀ v, w.Closed fd v → Q (.error (.os .isADirectory none)) v)
    (hgone : n.type ≠ .directory → n.type ≠ .regular →
      ∀ v, w.Closed fd v → Q (.error (.os .fileNotFound none)) v)
    (hname : n.type = .regular → w.env.refuses p = true →
      ∀ v, w.Closed fd v → Q (.error .valueError) v)
    (herror : n.type = .regular → w.env.refuses p = false → hasSurrogate p = true →
      ∀ v, w.Closed fd v → Q (.error .unicodeEncodeError) v)
    (hok : n.type = .regular → w.env.refuses p = false → hasSurrogate p = false →
      ∀ header v, contentDisposition p fieldName = some header → w.Quiet v →
        Q (.ok ⟨fd,header⟩) v) :
    (Program.onError
      (do
        let st ← Os.fstat fd
        if st.type = .directory then .raise (.os .isADirectory none)
        else if st.type ≠ .regular then .raise (.os .fileNotFound none)
        else pure ())
      (Os.close fd) >>= fun _ => CodeExecutorApi.readFile fd p fieldName).Ends w Q := by
  refine Program.Ends.bind (R := fun r v => match r with
    | .ok _ => w.Quiet v ∧ n.type = .regular
    | .error e => Q (.error e) v) ?_ ?_ fun e v h => h
  · refine Program.Ends.onError (R := fun r v => w.Quiet v ∧ match r with
      | .ok _ => n.type = .regular
      | .error e => ∀ u, w.Closed fd u → Q (.error e) u) ?_ (fun _ v h => h) ?_
    · refine Program.Ends.bind (R := fun r v => r = .ok n.stat ∧ w.Quiet v) ?_ ?_ ?_
      · exact Os.ends_fstat henv hfd hn fun v hv => ⟨rfl,hv⟩
      · rintro _ v ⟨⟨⟩,hv⟩
        have htype : n.stat.type = n.type := rfl
        rw [htype]
        by_cases hd : n.type = .directory
        · rw [if_pos hd]
          exact ⟨hv,hdir hd⟩
        by_cases hr : n.type = .regular
        · rw [if_neg hd,if_neg (not_not.mpr hr)]
          exact ⟨hv,hr⟩
        · rw [if_neg hd,if_pos hr]
          exact ⟨hv,hgone hd hr⟩
      · rintro e v ⟨⟨⟩,_⟩
    · rintro e v ⟨hv,hq⟩
      exact Os.ends_close_reliable (hv.env ▸ henv) ((hv.keeps _).has hfd) fun u hu =>
        ⟨rfl,hq u (hv.closed hu)⟩
  · rintro _ v ⟨hv,hr⟩
    refine ends_payload (hv.env ▸ henv) ((hv.keeps _).has hfd) (fun hrefuses u hu => ?_)
      (fun hrefuses hs u hu => ?_) fun hrefuses hs header u hheader hu => ?_
    · exact hname hr (hv.env ▸ hrefuses) u (hv.closed hu)
    · exact herror hr (hv.env ▸ hrefuses) hs u (hv.closed hu)
    · exact hok hr (hv.env ▸ hrefuses) hs header u hheader (hv.trans hu)

/-- `Session.read_file`. -/
theorem ends_readFile {Q : Except (Exc AppError) Payload → World → Prop} (henv : w.env.Reliable)
    (ht : Traversable w.root) (hq : normalizeSubPath q = .ok p)
    (herror : ∀ r e v, find w.root p = .error r → r.Raises e → Still w v → Q (.error e) v)
    (hgone : ∀ n errno v, find w.root p = .ok n → n.type ≠ .regular → n.type ≠ .directory →
      unreadable w.env.refuses p n = false → Still w v → Q (.error (.os .fileNotFound errno)) v)
    (hrefuse : ∀ n e v, find w.root p = .ok n → unreadable w.env.refuses p n = true →
      Refusal e ∨ e = .valueError → Still w v → Q (.error e) v)
    (hdir : ∀ n v, find w.root p = .ok n → n.type = .directory → Still w v →
      Q (.error (.os .isADirectory none)) v)
    (hok : ∀ n loc fd header v, find w.root p = .ok n → n.type = .regular →
      unreadable w.env.refuses p n = false → Still w v → v.Has fd loc → v.root.get loc = some n →
      Q (.ok ⟨fd,header⟩) v) :
    (readFile rootDirectory q none).Ends w Q := by
  have hp := normalizeSubPath_normalised hq
  unfold readFile
  rw [normalize_ok hq,Program.pure_bind]
  refine ends_openParent henv ht hp (fun r e v hr he hroot hk => ?_) ?_
  · exact herror r e v (by rw [find,hr]) he ⟨hroot,hk⟩
  intro fd loc b bs v hloc hdir' hroot hk hle hhas
  have hfind {o : Except NoWay Node} (h : (match nameOf (lastPart p) with
      | none => .error .badName
      | some c => match w.root.get (loc ++ [c]) with
        | some n => .ok n
        | none => .error .missing) = o) : find w.root p = o := by
    rw [find,hloc]
    exact h
  have hstill {u x : World} (hu : Still v u) (hx : u.Closed fd x) : Still w x :=
    (⟨hu.root.trans hroot,hk.step hu.keeps⟩ : Still w u).of_closed hle hx
  refine Program.Ends.bind (R := fun r u => match r with
    | .error e => v.Keeps v.nextFd u ∧ ∀ x, u.Closed fd x → Q (.error e) x
    | .ok fd' => fd' = v.nextFd ∧ u.root = v.root ∧ ∃ c n, nameOf (lastPart p) = some c ∧
        w.root.get (loc ++ [c]) = some n ∧ n.type ≠ .symlink ∧
        (n.type = .regular → n.attr.mode.read = true) ∧
        (n.type = .other → ∀ refuses p, unreadable refuses p n = false) ∧
        v.Opened (loc ++ [c]) u) ?_ ?_ fun e u h => h
  · refine ends_openFile (hk.env ▸ henv) (hroot ▸ ht) (component_lastPart hp) hhas
      (hroot ▸ hdir') ?_ ?_ ?_ ?_ ?_
    · intro hnone e u hu he
      refine ⟨hu.keeps _,fun x hx => ?_⟩
      exact herror .badName e x (hfind (by rw [hnone])) he (hstill ⟨hu.root,hu.keeps _⟩ hx)
    · intro c hc hn errno u hu
      refine ⟨hu.keeps _,fun x hx => ?_⟩
      rw [hroot] at hn
      exact herror .missing _ x (hfind (by rw [hc]; simp only [hn])) ⟨errno,rfl⟩
        (hstill ⟨hu.root,hu.keeps _⟩ hx)
    · intro c n hc hn hreg hd hun errno u hu
      refine ⟨hu.keeps _,fun x hx => ?_⟩
      rw [hroot] at hn
      exact hgone n errno x (hfind (by rw [hc]; simp only [hn])) hreg hd (hun _ p)
        (hstill ⟨hu.root,hu.keeps _⟩ hx)
    · intro c n hc hn hun u hu
      refine ⟨hu.keeps _,fun x hx => ?_⟩
      rw [hroot] at hn
      exact hrefuse n _ x (hfind (by rw [hc]; simp only [hn])) (hun _ p) (.inl (.inr rfl))
        (hstill ⟨hu.root,hu.keeps _⟩ hx)
    · intro c n u hc hn hlink hreg hother hu huroot
      exact ⟨rfl,huroot,c,n,hc,hroot ▸ hn,hlink,hreg,hother,hu⟩
  · rintro _ u ⟨rfl,huroot,c,n,hc,hn,hlink,hreg,hother,hu⟩
    have hf : find w.root p = .ok n := hfind (by rw [hc]; simp only [hn])
    have henvs : u.env = w.env := hu.keeps.env.trans hk.env
    have hshut {y x : World} (hy : u.Closed v.nextFd y) (hx : y.Closed fd x) : Still w x := by
      refine hstill ⟨hy.root.trans huroot,?_⟩ hx
      exact hu.keeps.trans (hy.keeps le_rfl)
    refine ends_serveFile (n := n) (hu.keeps.env ▸ hk.env ▸ henv) hu.has
      (by rw [huroot,hroot,hn]) ?_ ?_ ?_ ?_ ?_
    · intro hd y hy
      refine ⟨hu.keeps.trans (hy.keeps le_rfl),fun x hx => hdir n x hf hd (hshut hy hx)⟩
    · intro hd hr y hy
      refine ⟨hu.keeps.trans (hy.keeps le_rfl),fun x hx => ?_⟩
      refine hgone n none x hf hr hd ?_ (hshut hy hx)
      cases n with
      | file => exact absurd rfl hr
      | dir => rfl
      | symlink => rfl
      | special => exact hother rfl _ p
    · intro hr hrefuses y hy
      refine ⟨hu.keeps.trans (hy.keeps le_rfl),fun x hx => ?_⟩
      refine hrefuse n _ x hf ?_ (.inr rfl) (hshut hy hx)
      cases n with
      | file => simp [unreadable,henvs ▸ hrefuses]
      | dir | symlink | special => cases hr
    · intro hr _ hs y hy
      refine ⟨hu.keeps.trans (hy.keeps le_rfl),fun x hx => ?_⟩
      refine hrefuse n _ x hf ?_ (.inl (.inl (.inl rfl))) (hshut hy hx)
      cases n with
      | file => simp [unreadable,hs]
      | dir | symlink | special => cases hr
    · intro hr hrefuses hs header y _ hy
      refine ⟨hu.keeps.step (hy.keeps _),fun x hx => ?_⟩
      have hyHas := (hy.keeps _).has hu.has
      refine hok n (loc ++ [c]) v.nextFd header x hf hr ?_
        (hstill ⟨hy.root.trans huroot,hu.keeps.step (hy.keeps _)⟩ hx) (hx.has ?_ hyHas) ?_
      · cases n with
        | file b content =>
          have := hreg rfl
          simp only [unreadable,hs,henvs ▸ hrefuses,Bool.or_false,Bool.not_eq_false']
          exact this
        | dir | symlink | special => cases hr
      · have := hhas.lt
        omega
      · rw [hx.root,hy.root,huroot,hroot,hn]

section Listing
variable {fd : ℕ} {loc : Loc} {a : Attr} {es : List (Name × Node)}

theorem ends_statEntry {Q : Except (Exc AppError) (Option Entry) → World → Prop}
    (henv : w.env.Reliable) (ht : Traversable w.root) (hfd : w.Has fd loc)
    (hdir : w.root.get loc = some (.dir a es)) {e : Name × Node} (he : e ∈ es)
    (hok : ∀ v, w.Quiet v → Q (.ok (some (entry e))) v) :
    (statEntry fd (fsdecode e.1.bytes)).Ends w Q := by
  have hname := nameOf_fsdecode e.1 (ht.short loc a es hdir e he)
  have hlookup := lookup_of_mem (ht.nodup loc a es hdir) he
  refine Program.Ends.handle (R := fun r v => w.Quiet v ∧ r = .ok (some (entry e))) ?_
    (fun _ v h => h.2 ▸ hok v h.1) fun _ v h => (nomatch h.2)
  refine Program.Ends.bind (R := fun r v => w.Quiet v ∧ r = .ok e.2.stat) ?_ ?_ ?_
  · refine Os.ends_stat henv (component_fsdecode e.1) hfd hdir (ht.mode loc a es hdir).2 ?_ ?_ ?_
    · intro hnone
      rw [hname] at hnone
      cases hnone
    · intro c hc hnone
      cases hname.symm.trans hc
      rw [hlookup] at hnone
      cases hnone
    · intro c n hc hn v hv
      cases hname.symm.trans hc
      cases hlookup.symm.trans hn
      exact ⟨hv,rfl⟩
  · rintro _ v ⟨hv,⟨⟩⟩
    exact ⟨hv,rfl⟩
  · rintro _ v ⟨_,⟨⟩⟩

/-- Every entry is listed. -/
theorem ends_statEntries {Q : Except (Exc AppError) (List Entry) → World → Prop}
    {l : List (Name × Node)} (henv : w.env.Reliable) (ht : Traversable w.root) (hfd : w.Has fd loc)
    (hdir : w.root.get loc = some (.dir a es)) (hl : ∀ e ∈ l, e ∈ es)
    (hok : ∀ v, w.Quiet v → Q (.ok (l.map entry)) v) :
    (statEntries fd (l.map fun e => fsdecode e.1.bytes)).Ends w Q := by
  induction l generalizing w Q with
  | nil => exact hok w (.refl w)
  | cons e l ih =>
    refine Program.Ends.bind (R := fun r v => w.Quiet v ∧ r = .ok (some (entry e))) ?_ ?_ ?_
    · exact ends_statEntry henv ht hfd hdir (hl e List.mem_cons_self) fun v hv => ⟨hv,rfl⟩
    · rintro _ v ⟨hv,⟨⟩⟩
      refine Program.Ends.bind (R := fun r u => w.Quiet u ∧ r = .ok (l.map entry)) ?_ ?_ ?_
      · exact ih (hv.env ▸ henv) (hv.root ▸ ht) ((hv.keeps _).has hfd) (hv.root ▸ hdir)
          (fun e he => hl e (List.mem_cons_of_mem _ he)) fun u hu => ⟨hv.trans hu,rfl⟩
      · rintro _ u ⟨hu,⟨⟩⟩
        exact hok u hu
      · rintro _ u ⟨_,⟨⟩⟩
    · rintro _ v ⟨_,⟨⟩⟩

/-- Listing an open directory, and closing it. -/
theorem ends_listEntries {Q : Except (Exc AppError) (List Entry) → World → Prop}
    (henv : w.env.Reliable) (ht : Traversable w.root) (hfd : w.Has fd loc)
    (hdir : w.root.get loc = some (.dir a es))
    (hok : ∀ v, w.Closed fd v → Q (.ok (es.map entry)) v) :
    (Program.ensure
      (do
        let names ← Os.listdir fd
        statEntries fd names)
      (Os.close fd)).Ends w Q := by
  refine Program.Ends.ensure (R := fun r v => w.Quiet v ∧ r = .ok (es.map entry)) ?_ ?_
  · refine Program.Ends.bind (R := fun r v => w.Quiet v ∧
      r = .ok (es.map fun e => fsdecode e.1.bytes)) ?_ ?_ ?_
    · exact Os.ends_listdir henv hfd hdir fun v hv => ⟨hv,rfl⟩
    · rintro _ v ⟨hv,⟨⟩⟩
      exact ends_statEntries (hv.env ▸ henv) (hv.root ▸ ht) ((hv.keeps _).has hfd)
        (hv.root ▸ hdir) (fun _ he => he) fun u hu => ⟨hv.trans hu,rfl⟩
    · rintro _ v ⟨_,⟨⟩⟩
  · rintro _ v ⟨hv,rfl⟩
    exact Os.ends_close_reliable (hv.env ▸ henv) ((hv.keeps _).has hfd) fun u hu =>
      ⟨rfl,hok u (hv.closed hu)⟩

end Listing

/-- `Session.list_directory` of the session itself. -/
theorem ends_listDirectory_root {Q : Except (Exc AppError) Listing → World → Prop}
    (henv : w.env.Reliable) (ht : Traversable w.root) (hq : strip q = []) {a : Attr}
    {es : List (Name × Node)} (hdir : w.root = .dir a es)
    (hok : ∀ v, Still w v → Q (.ok (listingOf [] es)) v) :
    (listDirectory rootDirectory q).Ends w Q := by
  unfold listDirectory
  rw [if_pos hq,Program.pure_bind]
  dsimp only
  rw [if_pos rfl]
  refine Program.Ends.bind (R := fun r v => r = .ok w.nextFd ∧ w.Opened [] v ∧ v.root = w.root)
    ?_ ?_ ?_
  · exact ends_openRoot henv ht fun v hv hroot => ⟨rfl,hv,hroot⟩
  · rintro _ v ⟨⟨⟩,hv,hroot⟩
    refine Program.Ends.bind (R := fun r u => r = .ok (es.map entry) ∧ v.Closed w.nextFd u) ?_ ?_ ?_
    · exact ends_listEntries (hv.keeps.env ▸ henv) (hroot ▸ ht) hv.has (by rw [hroot,hdir]; rfl)
        fun u hu => ⟨rfl,hu⟩
    · rintro _ u ⟨⟨⟩,hu⟩
      exact hok u ((⟨hroot,hv.keeps⟩ : Still w v).of_closed le_rfl hu)
    · rintro _ u ⟨⟨⟩,_⟩
  · rintro _ v ⟨⟨⟩,_⟩

/-- `Session.list_directory` of a directory in the session. -/
theorem ends_listDirectory {Q : Except (Exc AppError) Listing → World → Prop}
    (henv : w.env.Reliable) (ht : Traversable w.root) (hq : normalizeSubPath q = .ok p) {a : Attr}
    {es : List (Name × Node)}
    (hfind : find w.root p = .ok (.dir a es))
    (hok : ∀ v, Still w v → Q (.ok (listingOf p es)) v) :
    (listDirectory rootDirectory q).Ends w Q := by
  have hp := normalizeSubPath_normalised hq
  unfold listDirectory
  rw [if_neg (strip_ne_nil hq),normalize_ok hq,Program.pure_bind]
  dsimp only
  rw [if_neg (normalizeSubPath_ne_nil hq)]
  unfold find at hfind
  refine Program.Ends.bind (R := fun r v => ∃ fd loc, r = .ok fd ∧ w.nextFd ≤ fd ∧ Still w v ∧
    v.Has fd loc ∧ w.root.get loc = some (.dir a es)) ?_ ?_ ?_
  · refine ends_openParent henv ht hp (fun r e v hr he hroot hk => ?_) ?_
    · rw [hr] at hfind
      cases hfind
    intro fd loc b bs v hloc hdir' hroot hk hle hhas
    rw [hloc] at hfind
    refine ends_openDir (hk.env ▸ henv) (hroot ▸ ht) (component_lastPart hp) hhas
      (hroot ▸ hdir') ?_ ?_ ?_
    · intro hnone
      rw [hnone] at hfind
      cases hfind
    · intro c hc hno
      simp only [hc] at hfind
      split at hfind
      · cases hfind
        exact absurd (hroot ▸ ‹_›) (hno a es)
      · cases hfind
    · intro c d ds u hc hget hu huroot
      refine ⟨hu.keeps,fun x hx => ⟨_,loc ++ [c],rfl,hk.nextFd,?_,hx.has ?_ hu.has,?_⟩⟩
      · exact (⟨huroot.trans hroot,hk.step hu.keeps⟩ : Still w u).of_closed hle hx
      · have := hhas.lt
        omega
      · rw [hroot] at hget
        simp only [hc,hget] at hfind
        cases hfind
        exact hget
  · rintro fd' v ⟨fd,loc,hfd,hle,hv,hhas,hget⟩
    cases hfd
    refine Program.Ends.bind (R := fun r u => r = .ok (es.map entry) ∧ v.Closed fd' u) ?_ ?_ ?_
    · exact ends_listEntries (hv.keeps.env ▸ henv) (hv.root ▸ ht) hhas (hv.root ▸ hget)
        fun u hu => ⟨rfl,hu⟩
    · rintro _ u ⟨⟨⟩,hu⟩
      exact hok u (hv.of_closed hle hu)
    · rintro _ u ⟨⟨⟩,_⟩
  · rintro _ v ⟨fd,loc,⟨⟩,_⟩

end Session
end CodeExecutorApi
