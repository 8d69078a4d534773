import CodeExecutorApi.Posix.Leaves
import CodeExecutorApi.Posix.Mount
import CodeExecutorApi.Python.Os

/-! What each call of the `os` module does to a tree, as a rule about the program that makes it. A
call names one entry of an open directory and does not follow it. -/
namespace Posix

/-- No call fails for a reason that the tree does not give, save those that may exceed a limit on
what is stored. -/
def Environment.Reliable (env : Environment) : Prop :=
  ∀ call n, call ∉ [Call.create,.write,.mkdir,.rename] → env.fault call n = none

namespace World

/-- Calls were made that changed nothing. -/
structure Quiet (w v : World) : Prop where
  env : v.env = w.env
  root : v.root = w.root
  fds : v.fds = w.fds
  nextFd : v.nextFd = w.nextFd

/-- The descriptors below `n` stand for what they stood for. -/
structure Keeps (n : ℕ) (w v : World) : Prop where
  env : v.env = w.env
  nextFd : w.nextFd ≤ v.nextFd
  locOf : ∀ fd < n, v.locOf fd = w.locOf fd

/-- An open descriptor of a place. -/
structure Has (w : World) (fd : ℕ) (loc : Loc) : Prop where
  locOf : w.locOf fd = .ok loc
  lt : fd < w.nextFd

/-- A descriptor was opened for a place. -/
structure Opened (loc : Loc) (w v : World) : Prop where
  keeps : w.Keeps w.nextFd v
  has : v.Has w.nextFd loc

structure Closed (fd : ℕ) (w v : World) : Prop where
  env : v.env = w.env
  root : v.root = w.root
  nextFd : v.nextFd = w.nextFd
  locOf : ∀ fd', fd' ≠ fd → v.locOf fd' = w.locOf fd'

/-- An entry was changed, and no descriptor. -/
structure Relinks (loc : Loc) (c : Name) (o : Option Node) (w v : World) : Prop where
  tree : Relinked loc c o w.root v.root
  keeps : w.Keeps w.nextFd v

variable {n : ℕ} {w v u : World} {loc : Loc}

theorem Quiet.refl (w : World) : w.Quiet w := ⟨rfl,rfl,rfl,rfl⟩

theorem Quiet.trans (h : w.Quiet v) (h' : v.Quiet u) : w.Quiet u :=
  ⟨h'.env.trans h.env,h'.root.trans h.root,h'.fds.trans h.fds,h'.nextFd.trans h.nextFd⟩

instance : Std.Refl Quiet := ⟨.refl⟩

instance : IsTrans World Quiet := ⟨fun _ _ _ => .trans⟩

theorem Quiet.closed {fd : ℕ} (h : w.Quiet v) (h' : v.Closed fd u) : w.Closed fd u :=
  ⟨h'.env.trans h.env,h'.root.trans h.root,h'.nextFd.trans h.nextFd,
    fun fd' hne => (h'.locOf fd' hne).trans (by rw [World.locOf,World.locOf,h.fds])⟩

theorem quiet_tick (w : World) : w.Quiet w.tick := ⟨rfl,rfl,rfl,rfl⟩

theorem Quiet.keeps (h : w.Quiet v) (n : ℕ) : Keeps n w v :=
  ⟨h.env,h.nextFd.ge,fun fd _ => by rw [World.locOf,World.locOf,h.fds]⟩

theorem Keeps.refl (n : ℕ) (w : World) : Keeps n w w := ⟨rfl,le_rfl,fun _ _ => rfl⟩

theorem Keeps.trans (h : Keeps n w v) (h' : Keeps n v u) : Keeps n w u :=
  ⟨h'.env.trans h.env,h.nextFd.trans h'.nextFd,fun fd hfd => (h'.locOf fd hfd).trans (h.locOf fd hfd)⟩

theorem Keeps.mono {m : ℕ} (h : Keeps n w v) (hm : m ≤ n) : Keeps m w v :=
  ⟨h.env,h.nextFd,fun fd hfd => h.locOf fd (hfd.trans_le hm)⟩

/-- What was begun later kept more. -/
theorem Keeps.step (h : Keeps w.nextFd w v) (h' : Keeps v.nextFd v u) : Keeps w.nextFd w u :=
  h.trans (h'.mono h.nextFd)

theorem relinks_refl {c : Name} {n : Node} (h : w.root.get (loc ++ [c]) = some n) :
    w.Relinks loc c (some n) w := by
  obtain ⟨a,es,hdir,hc⟩ := Node.get_parent h
  exact ⟨hc ▸ .refl hdir c,.refl _ _⟩

theorem Relinks.comp {c : Name} {o o' : Option Node} (h : w.Relinks loc c o v)
    (h' : v.Relinks loc c o' u) : w.Relinks loc c o' u :=
  ⟨h.tree.comp h'.tree,h.keeps.step h'.keeps⟩

theorem Relinks.quiet {c : Name} {o : Option Node} (h : w.Relinks loc c o v) (h' : v.Quiet u) :
    w.Relinks loc c o u := ⟨h'.root ▸ h.tree,h.keeps.step (h'.keeps _)⟩

theorem Quiet.relinks {c : Name} {o : Option Node} (h : w.Quiet v) (h' : v.Relinks loc c o u) :
    w.Relinks loc c o u := ⟨h.root ▸ h'.tree,(h.keeps _).step h'.keeps⟩

theorem Keeps.has {fd : ℕ} (h : Keeps w.nextFd w v) (hfd : w.Has fd loc) : v.Has fd loc :=
  ⟨(h.locOf fd hfd.lt).trans hfd.locOf,hfd.lt.trans_le h.nextFd⟩

theorem Closed.keeps {fd : ℕ} (h : w.Closed fd v) (hn : n ≤ fd) : w.Keeps n v :=
  ⟨h.env,h.nextFd.ge,fun fd' hfd' => h.locOf fd' (by omega)⟩

theorem Closed.has {fd fd' : ℕ} (h : w.Closed fd v) (hne : fd' ≠ fd) (hfd : w.Has fd' loc) :
    v.Has fd' loc :=
  ⟨(h.locOf fd' hne).trans hfd.locOf,h.nextFd ▸ hfd.lt⟩

theorem locOf_alloc (w : World) (loc : Loc) : (w.alloc loc).2.locOf w.nextFd = .ok loc := by
  simp only [alloc,locOf,List.lookup_cons_self]

theorem keeps_alloc (w : World) (loc : Loc) : w.Keeps w.nextFd (w.alloc loc).2 := by
  refine ⟨rfl,Nat.le_succ _,fun fd hfd => ?_⟩
  have hne : fd ≠ w.nextFd := by omega
  simp only [alloc,locOf,lookup_cons_ite,if_neg hne]

/-- What `open` ends with. -/
theorem opened_alloc (w : World) (loc : Loc) : w.Opened loc (w.alloc loc).2.tick :=
  ⟨(keeps_alloc w loc).trans ((quiet_tick _).keeps _),locOf_alloc w loc,Nat.lt_succ_self _⟩

theorem keeps_setEntries (w : World) (f : List (Name × Node) → List (Name × Node)) (loc : Loc)
    (n : ℕ) : w.Keeps n (w.setEntries f loc) := ⟨rfl,le_rfl,fun _ _ => rfl⟩

theorem keeps_link (w : World) (loc : Loc) (m : Node) (n : ℕ) : w.Keeps n (w.link loc m) := by
  unfold link
  split
  · exact keeps_setEntries w _ _ n
  · exact .refl n w

theorem keeps_unlink (w : World) (loc : Loc) (n : ℕ) : w.Keeps n (w.unlink loc) := by
  unfold unlink
  split
  · exact keeps_setEntries w _ _ n
  · exact .refl n w

theorem nextFd_link (w : World) (loc : Loc) (m : Node) : (w.link loc m).nextFd = w.nextFd := by
  unfold link
  split <;> rfl

theorem Opened.after (h : v.Opened loc u) (h' : w.Keeps w.nextFd v) (hnext : v.nextFd = w.nextFd) :
    w.Opened loc u :=
  ⟨h'.step h.keeps,hnext ▸ h.has⟩

theorem renameLoc_ok {old new : Loc} {n : Node} {r : Unit} (h : renameLoc old new w = .ok (r,v))
    (hold : w.root.get old = some n) :
    old = new ∧ v = w ∨
      old ≠ new ∧ replaceable n (w.root.get new) = .ok () ∧ v = (w.unlink old).link new n := by
  rw [renameLoc,hold] at h
  cases hwrite : w.writable old with
  | error e =>
    rw [hwrite] at h
    cases h
  | ok =>
    cases hwrite' : w.writable new with
    | error e =>
      rw [hwrite,hwrite'] at h
      cases h
    | ok =>
      rw [hwrite,hwrite'] at h
      change (if old = new then _ else if _ then _ else _) = _ at h
      split_ifs at h with heq hloop
      · cases h
        exact .inl ⟨heq,rfl⟩
      · cases hreplace : replaceable n (w.root.get new) with
        | error e =>
          rw [hreplace] at h
          cases h
        | ok =>
          rw [hreplace] at h
          cases h
          exact .inr ⟨heq,rfl,rfl⟩

theorem isDir_of_replaceable {n m : Node} (h : replaceable n (some m) = .ok ())
    (hn : n.isDir = false) : m.isDir = false := by
  cases m with
  | dir a es =>
    rw [replaceable,if_pos hn] at h
    cases h
  | file | symlink | special => rfl

theorem lookup_close {fd fd' : ℕ} (w : World) (h : fd' ≠ fd) :
    (w.close fd).fds.lookup fd' = w.fds.lookup fd' := by
  change (w.fds.filter fun e => e.1 ≠ fd).lookup fd' = w.fds.lookup fd'
  induction w.fds with
  | nil => rfl
  | cons e fds ih =>
    obtain ⟨k,loc⟩ := e
    rw [lookup_cons_ite]
    by_cases hk : k = fd
    · rw [List.filter_cons_of_neg (by simpa using hk),ih,if_neg (hk ▸ h)]
    · rw [List.filter_cons_of_pos (by simpa using hk),lookup_cons_ite,ih]

theorem locOf_close {fd fd' : ℕ} (w : World) (h : fd' ≠ fd) : (w.close fd).locOf fd' = w.locOf fd' := by
  rw [locOf,locOf,lookup_close w h]

theorem closed_close (w : World) (fd : ℕ) : w.Closed fd (w.close fd).tick :=
  ⟨rfl,rfl,rfl,fun _ h => locOf_close w h⟩

end World
end Posix

namespace Python
open Machine Posix

/-- A component of a normalised path. -/
structure Component (s : Str) : Prop extends Plain s where
  nul_notMem : 0 ∉ s

/-- The entry a component names, if an entry can have that name. -/
def nameOf (s : Str) : Option Name :=
  (fsencode s).bind fun b => if h : IsName b ∧ b.length ≤ nameMax then some ⟨b,h.1⟩ else none

/-- What looking up a component raises that no entry can have as its name. -/
def IsBadName {ε : Type} (e : Exc ε) : Prop := e = .unicodeEncodeError ∨ e = Os.oserror .enametoolong

theorem nameOf_eq_some {s : Str} {c : Name} (h : nameOf s = some c) :
    fsencode s = some c.bytes ∧ c.bytes.length ≤ nameMax := by
  rw [nameOf,Option.bind_eq_some_iff] at h
  obtain ⟨b,hb,h⟩ := h
  split_ifs at h with hname
  cases h
  exact ⟨hb,hname.2⟩

theorem nul_notMem_fsencode {s : Str} {b : Bytes} (hs : Component s) (hb : fsencode s = some b) :
    0 ∉ b := fun h => by
  obtain ⟨c,hc,hval⟩ := mem_of_mem_fsencode hb h (by decide)
  exact hs.nul_notMem ((Fin.ext hval : c = 0) ▸ hc)

theorem component_fsdecode (c : Name) : Component (fsdecode c.bytes) :=
  ⟨plain_fsdecode c,nul_notMem_fsdecode c⟩

/-- The name an entry is listed under leads back to it. -/
theorem nameOf_fsdecode (c : Name) (h : c.bytes.length ≤ nameMax) :
    nameOf (fsdecode c.bytes) = some c := by
  rw [nameOf,fsencode_fsdecode,Option.bind_some,dif_pos ⟨c.isName,h⟩]

namespace Os
variable {ε α : Type} {w : World} {Q : Except (Exc ε) α → World → Prop}

theorem ends_syscall {call : Call} {f : World → Except Errno (α × World)}
    (hfault : ∀ e, w.env.fault call w.calls = some e → Q (.error (oserror e)) w.tick)
    (herror : ∀ e, f w = .error e → Q (.error (oserror e)) w.tick)
    (hok : ∀ a v, f w = .ok (a,v) → Q (.ok a) v.tick) : (syscall call f).Ends w Q := by
  unfold Program.Ends syscall
  cases hf : w.env.fault call w.calls with
  | some e => exact hfault e hf
  | none =>
    dsimp only
    rcases hfw : f w with e | ⟨a,v⟩
    · exact herror e hfw
    · exact hok a v hfw

theorem ends_fault {call : Call} {f : World → Except Errno (α × World)} {e : Errno}
    (he : w.env.fault call w.calls = some e) (hq : Q (.error (oserror e)) w.tick) :
    (syscall call f).Ends w Q := by
  unfold Program.Ends syscall
  rw [he]
  exact hq

/-- Nothing but the tree makes a reliable call fail. -/
theorem ends_reliable {call : Call} {f : World → Except Errno (α × World)} (henv : w.env.Reliable)
    (hcall : call ∉ [Call.create,.write,.mkdir,.rename])
    (herror : ∀ e, f w = .error e → Q (.error (oserror e)) w.tick)
    (hok : ∀ a v, f w = .ok (a,v) → Q (.ok a) v.tick) : (syscall call f).Ends w Q :=
  ends_syscall (fun e he => by rw [henv call w.calls hcall] at he; cases he) herror hok

/-- What every call on an entry ends with after it failed. -/
def Fails (Q : Except (Exc ε) α → World → Prop) (w : World) : Prop :=
  ∀ e v, w.Quiet v → Q (.error e) v

/-- The exception of a failed call. -/
def IsOSError (e : Exc ε) : Prop := ∃ cls errno, e = .os cls errno

theorem syscall_raises (call : Call) (f : World → Except Errno (α × World)) :
    (syscall call f : Os ε α).Raises IsOSError := by
  intro w e he
  unfold syscall at he
  split at he
  · cases he
    exact ⟨_,_,rfl⟩
  · split at he <;> cases he
    exact ⟨_,_,rfl⟩

theorem close_raises (fd : ℕ) : (close fd : Os ε Unit).Raises IsOSError := by
  intro w e he
  unfold close at he
  split at he <;> cases he <;> exact ⟨_,_,rfl⟩

section Entry
variable {fd : ℕ} {loc : Loc} {a : Attr} {es : List (Name × Node)} {s : Str}

theorem path_component (hs : Component s) :
    (fsencode s = none ∧ (path s : Os ε Bytes) = .raise .unicodeEncodeError) ∨
      ∃ b, fsencode s = some b ∧ (path s : Os ε Bytes) = pure b := by
  unfold path
  cases hb : fsencode s with
  | none => exact .inl ⟨rfl,rfl⟩
  | some b =>
    exact .inr ⟨b,rfl,if_neg (nul_notMem_fsencode hs hb)⟩

theorem nameOf_of_unencodable (h : fsencode s = none) : nameOf s = none := by
  rw [nameOf,h]
  rfl

theorem path_of_name {c : Name} (hs : Component s) (hc : nameOf s = some c) :
    (path s : Os ε Bytes) = pure c.bytes := by
  rcases path_component hs with ⟨hnone,_⟩ | ⟨b,hb,hpath⟩
  · rw [nameOf_of_unencodable hnone] at hc
    cases hc
  · cases hb.symm.trans (nameOf_eq_some hc).1
    exact hpath

/-- The kernel finds the entry, unless its name is too long. -/
theorem resolving_entry {f : Loc → World → Except Errno (α × World)} {b : Bytes} (hs : Component s)
    (hb : fsencode s = some b) (hfd : w.Has fd loc)
    (hdir : w.root.get loc = some (.dir a es)) (hsearch : a.mode.search = true) :
    World.resolving false (some fd) b f w =
      match nameOf s with
      | some c => f (loc ++ [c]) w
      | none => .error .enametoolong := by
  have hname := isName_of_plain hs.toPlain hb (nul_notMem_fsencode hs hb)
  have hentry := namei_name w.root w.env.maxLinks loc ⟨b,hname⟩
  rw [hdir,entryLoc] at hentry
  simp only [hsearch,Bool.true_eq_false,if_false] at hentry
  rw [World.resolving,World.base,hfd.locOf]
  change (do let loc ← namei _ _ _ _ b; f loc w) = _
  rw [hentry,nameOf,hb,Option.bind_some]
  by_cases hlen : b.length ≤ nameMax
  · have hshort : b.length < pathMax := hlen.trans_lt (by decide)
    rw [dif_pos ⟨hname,hlen⟩,if_neg (not_le.mpr hshort),if_neg (not_lt.mpr hlen)]
    rfl
  · rw [dif_neg fun h => hlen h.2,if_pos (not_le.mp hlen),ite_self]
    rfl

/-- In a directory that cannot be searched it finds nothing. -/
theorem resolving_refused {f : Loc → World → Except Errno (α × World)} {b : Bytes}
    (hs : Component s) (hb : fsencode s = some b) (hfd : w.Has fd loc)
    (hdir : w.root.get loc = some (.dir a es)) (hsearch : a.mode.search = false) :
    ∃ e, World.resolving false (some fd) b f w = .error e := by
  have hentry := namei_name w.root w.env.maxLinks loc
    ⟨b,isName_of_plain hs.toPlain hb (nul_notMem_fsencode hs hb)⟩
  rw [hdir,entryLoc] at hentry
  simp only [hsearch,if_true] at hentry
  rw [World.resolving,World.base,hfd.locOf]
  change ∃ e, (do let loc ← namei w.root false w.env.maxLinks loc b; f loc w) = .error e
  rw [hentry]
  split_ifs
  · exact ⟨_,rfl⟩
  · exact ⟨_,rfl⟩

/-- A call on one entry of an open directory. -/
theorem ends_at {call : Call} {f : Loc → World → Except Errno (α × World)} (hs : Component s)
    (hfd : w.Has fd loc) (hdir : w.root.get loc = some (.dir a es))
    (hsearch : a.mode.search = true)
    (hbad : nameOf s = none → ∀ e v, w.Quiet v →
      (w.env.fault call w.calls = none → IsBadName e) → Q (.error e) v)
    (hname : ∀ c, nameOf s = some c → (syscall call (f (loc ++ [c])) : Os ε α).Ends w Q) :
    (path s >>= fun p => syscall call (World.resolving false (some fd) p f) : Os ε α).Ends w Q := by
  rcases path_component hs with ⟨hb,hpath⟩ | ⟨b,hb,hpath⟩
  · rw [hpath]
    exact hbad (nameOf_of_unencodable hb) _ _ (.refl w) fun _ => .inl rfl
  · rw [hpath,Program.pure_bind]
    have hresolve := resolving_entry (f := f) hs hb hfd hdir hsearch
    cases hc : nameOf s with
    | some c =>
      rw [hc] at hresolve
      have hcall := hname c hc
      unfold Program.Ends syscall at hcall ⊢
      rwa [hresolve]
    | none =>
      rw [hc] at hresolve
      refine ends_syscall (fun e he => ?_) (fun e he => ?_) fun a v hav => ?_
      · exact hbad hc _ _ (World.quiet_tick w) fun h => by rw [h] at he; cases he
      · rw [hresolve] at he
        cases he
        exact hbad hc _ _ (World.quiet_tick w) fun _ => .inr rfl
      · rw [hresolve] at hav
        cases hav

/-- The same in a directory that may not be searchable, when it does not matter how a call fails. -/
theorem ends_entry {call : Call} {f : Loc → World → Except Errno (α × World)} (hs : Component s)
    (hfd : w.Has fd loc) (hdir : w.root.get loc = some (.dir a es))
    (hfail : ∀ e v, w.Quiet v → (nameOf s = none ∨ a.mode.search = false) → Q (.error e) v)
    (hname : ∀ c, nameOf s = some c → a.mode.search = true →
      (syscall call (f (loc ++ [c])) : Os ε α).Ends w Q) :
    (path s >>= fun p => syscall call (World.resolving false (some fd) p f) : Os ε α).Ends w Q := by
  cases hsearch : a.mode.search with
  | true =>
    exact ends_at hs hfd hdir hsearch (fun hnone e v hv _ => hfail e v hv (.inl hnone))
      fun c hc => hname c hc hsearch
  | false =>
    rcases path_component hs with ⟨_,hpath⟩ | ⟨b,hb,hpath⟩
    · rw [hpath]
      exact hfail _ _ (.refl w) (.inr hsearch)
    · rw [hpath,Program.pure_bind]
      obtain ⟨e,he⟩ := resolving_refused (f := f) hs hb hfd hdir hsearch
      refine ends_syscall (fun e _ => ?_) (fun e _ => ?_) fun a v hav => ?_
      · exact hfail _ _ (World.quiet_tick w) (.inr hsearch)
      · exact hfail _ _ (World.quiet_tick w) (.inr hsearch)
      · rw [he] at hav
        cases hav

/-- What opening an entry without creating it comes to. -/
def openEntry (flags : Flags) : Option Node → Except Errno Unit
  | some n => World.openNode n flags
  | none => .error .enoent

theorem ends_open {Q : Except (Exc ε) ℕ → World → Prop} {flags : Flags} {mode : Mode}
    (hfault : w.env.fault .open w.calls = none) (hs : Component s) (hfd : w.Has fd loc)
    (hdir : w.root.get loc = some (.dir a es)) (hsearch : a.mode.search = true)
    (hcreate : flags.create = false) (hnofollow : flags.nofollow = true)
    (hbad : nameOf s = none → ∀ e v, w.Quiet v → IsBadName e → Q (.error e) v)
    (herror : ∀ c e, nameOf s = some c → openEntry flags (es.lookup c) = .error e →
      ∀ v, w.Quiet v → Q (.error (oserror e)) v)
    (hok : ∀ c n v, nameOf s = some c → es.lookup c = some n → World.openNode n flags = .ok () →
      w.Opened (loc ++ [c]) v → v.root = w.root → Q (.ok w.nextFd) v) :
    (open_ s flags mode (some fd) : Os ε ℕ).Ends w Q := by
  have hcall : (if flags.create then Call.create else .open) = .open := by rw [hcreate]; rfl
  have hfollow : (!flags.nofollow && !(flags.create && flags.exclusive)) = false := by
    rw [hnofollow]
    rfl
  unfold open_ World.openAt
  rw [hcall,hfollow]
  refine ends_at hs hfd hdir hsearch (fun hnone e v hv he => ?_) fun c hc => ?_
  · exact hbad hnone e v hv (he hfault)
  have hget := Node.get_entry hdir c
  refine ends_syscall (fun e he => by rw [hfault] at he; cases he) (fun e he => ?_) fun m v hv => ?_
  · refine herror c e hc ?_ _ (World.quiet_tick w)
    rw [World.openLoc,hget,hcreate] at he
    cases hn : es.lookup c with
    | none =>
      rw [hn] at he
      cases he
      rfl
    | some n =>
      rw [hn] at he
      simp only [Bool.false_eq_true,false_and,if_false] at he
      rcases ho : World.openNode n flags with e' | u
      · rw [ho] at he
        cases he
        exact ho
      · rw [ho] at he
        cases he
  · rw [World.openLoc,hget,hcreate] at hv
    cases hn : es.lookup c with
    | none =>
      rw [hn] at hv
      cases hv
    | some n =>
      rw [hn] at hv
      simp only [Bool.false_eq_true,false_and,if_false] at hv
      rcases ho : World.openNode n flags with e' | u
      · rw [ho] at hv
        cases hv
      · rw [ho] at hv
        cases hv
        exact hok c n _ hc hn ho (World.opened_alloc w _) rfl

/-- Opening an entry without creating it, when it does not matter how that fails. -/
theorem ends_openEntry {Q : Except (Exc ε) ℕ → World → Prop} {flags : Flags} {mode : Mode}
    (hs : Component s) (hfd : w.Has fd loc) (hdir : w.root.get loc = some (.dir a es))
    (hcreate : flags.create = false) (hnofollow : flags.nofollow = true) (hfail : Fails Q w)
    (hok : ∀ c n v, nameOf s = some c → a.mode.search = true → es.lookup c = some n →
      World.openNode n flags = .ok () → w.Opened (loc ++ [c]) v → v.root = w.root →
      Q (.ok w.nextFd) v) :
    (open_ s flags mode (some fd) : Os ε ℕ).Ends w Q := by
  have hcall : (if flags.create then Call.create else .open) = .open := by rw [hcreate]; rfl
  have hfollow : (!flags.nofollow && !(flags.create && flags.exclusive)) = false := by
    rw [hnofollow]
    rfl
  unfold open_ World.openAt
  rw [hcall,hfollow]
  refine ends_entry hs hfd hdir (fun e v hv _ => hfail e v hv) fun c hc hsearch => ?_
  refine ends_syscall (fun e _ => hfail _ _ (World.quiet_tick w))
    (fun e _ => hfail _ _ (World.quiet_tick w)) fun m v hv => ?_
  rw [World.openLoc,Node.get_entry hdir c,hcreate] at hv
  cases hn : es.lookup c with
  | none =>
    rw [hn] at hv
    cases hv
  | some n =>
    rw [hn] at hv
    simp only [Bool.false_eq_true,false_and,if_false] at hv
    rcases ho : World.openNode n flags with e | u
    · rw [ho] at hv
      cases hv
    · rw [ho] at hv
      cases hv
      exact hok c n _ hc hsearch hn ho (World.opened_alloc w _) rfl

/-- An entry with a directory that can be changed. -/
theorem writable_entry (hdir : w.root.get loc = some (.dir a es)) (c : Name) :
    w.writable (loc ++ [c]) = if a.mode.write then .ok () else .error .eacces := by
  rw [World.writable,List.dropLast_concat,hdir]
  rfl

theorem ends_stat {Q : Except (Exc ε) StatResult → World → Prop} (henv : w.env.Reliable)
    (hs : Component s) (hfd : w.Has fd loc) (hdir : w.root.get loc = some (.dir a es))
    (hsearch : a.mode.search = true)
    (hbad : nameOf s = none → ∀ e v, w.Quiet v → IsBadName e → Q (.error e) v)
    (hnone : ∀ c, nameOf s = some c → es.lookup c = none →
      ∀ v, w.Quiet v → Q (.error (oserror .enoent)) v)
    (hok : ∀ c n, nameOf s = some c → es.lookup c = some n → ∀ v, w.Quiet v → Q (.ok n.stat) v) :
    (stat s fd : Os ε StatResult).Ends w Q := by
  refine ends_at hs hfd hdir hsearch (fun hnone e v hv he => ?_) fun c hc => ?_
  · exact hbad hnone e v hv (he (henv _ _ (by decide)))
  have hget := Node.get_entry hdir c
  refine ends_reliable henv (by decide) (fun e he => ?_) fun m v hv => ?_
  · rw [World.statLoc,hget] at he
    cases hn : es.lookup c with
    | none =>
      rw [hn] at he
      cases he
      exact hnone c hc hn _ (World.quiet_tick w)
    | some n =>
      rw [hn] at he
      cases he
  · rw [World.statLoc,hget] at hv
    cases hn : es.lookup c with
    | none =>
      rw [hn] at hv
      cases hv
    | some n =>
      rw [hn] at hv
      cases hv
      exact hok c n hc hn _ (World.quiet_tick w)

theorem ends_mkdir {Q : Except (Exc ε) Unit → World → Prop} {mode : Mode} (hs : Component s)
    (hfd : w.Has fd loc) (hdir : w.root.get loc = some (.dir a es)) (hfail : Fails Q w)
    (hok : ∀ c b v, nameOf s = some c → es.lookup c = none → b.mode = mode →
      w.Relinks loc c (some (.dir b [])) v → Q (.ok ()) v) :
    (mkdir s mode fd : Os ε Unit).Ends w Q := by
  refine ends_entry hs hfd hdir (fun e v hv _ => hfail e v hv) fun c hc _ => ?_
  have hget := Node.get_entry hdir c
  refine ends_syscall (fun e _ => hfail _ _ (World.quiet_tick w))
    (fun e _ => hfail _ _ (World.quiet_tick w)) fun u v hv => ?_
  rw [World.mkdirLoc,hget,writable_entry hdir] at hv
  cases hn : es.lookup c with
  | some n =>
    rw [hn] at hv
    cases hv
  | none =>
    rw [hn] at hv
    by_cases hwrite : a.mode.write = true
    · rw [if_pos hwrite] at hv
      cases hv
      refine hok c _ _ hc hn rfl ⟨World.link_relinked hdir _,?_⟩
      exact ((World.keeps_link w _ _ _).trans ((World.quiet_tick _).keeps _))
    · rw [if_neg hwrite] at hv
      cases hv

/-- A new file. The directory can be changed. -/
theorem ends_create {Q : Except (Exc ε) ℕ → World → Prop} {flags : Flags} {mode : Mode}
    (hs : Component s) (hfd : w.Has fd loc) (hdir : w.root.get loc = some (.dir a es))
    (hcreate : flags.create = true) (hexclusive : flags.exclusive = true) (hfail : Fails Q w)
    (hok : ∀ c b v, nameOf s = some c → es.lookup c = none → a.mode.search = true →
      a.mode.write = true → b.mode = mode → Relinked loc c (some (.file b [])) w.root v.root → w.Opened (loc ++ [c]) v →
      Q (.ok w.nextFd) v) : (open_ s flags mode (some fd) : Os ε ℕ).Ends w Q := by
  have hcall : (if flags.create then Call.create else .open) = .create := by rw [hcreate]; rfl
  have hfollow : (!flags.nofollow && !(flags.create && flags.exclusive)) = false := by
    rw [hcreate,hexclusive,Bool.and_self,Bool.not_true,Bool.and_false]
  unfold open_ World.openAt
  rw [hcall,hfollow]
  refine ends_entry hs hfd hdir (fun e v hv _ => hfail e v hv) fun c hc hsearch => ?_
  have hget := Node.get_entry hdir c
  refine ends_syscall (fun e _ => hfail _ _ (World.quiet_tick w))
    (fun e _ => hfail _ _ (World.quiet_tick w)) fun u v hv => ?_
  rw [World.openLoc,hget,writable_entry hdir] at hv
  cases hn : es.lookup c with
  | some n =>
    rw [hn,hcreate,hexclusive] at hv
    cases hv
  | none =>
    rw [hn,hcreate] at hv
    by_cases hwrite : a.mode.write = true
    · rw [if_pos hwrite] at hv
      cases hv
      have hnext := World.nextFd_link w (loc ++ [c]) (.file (w.newAttr mode) [])
      have hopen := (World.opened_alloc (w.link (loc ++ [c]) (.file (w.newAttr mode) []))
        (loc ++ [c])).after (World.keeps_link w _ _ _) hnext
      have hroot := World.link_relinked (c := c) hdir (.file (w.newAttr mode) [])
      have hq := hok c (w.newAttr mode) (World.alloc _ _).2.tick hc hn hsearch hwrite rfl hroot hopen
      rwa [← hnext] at hq
    · rw [if_neg hwrite] at hv
      cases hv

theorem ends_unlink {Q : Except (Exc ε) Unit → World → Prop} (hs : Component s)
    (hfd : w.Has fd loc) (hdir : w.root.get loc = some (.dir a es))
    (hfail : ∀ e v, w.Quiet v → (∀ c n, nameOf s = some c → es.lookup c = some n →
      n.isDir = false → a.mode.search = true → a.mode.write = true →
      w.env.fault .unlink w.calls ≠ none) → Q (.error e) v)
    (hok : ∀ c n v, nameOf s = some c → es.lookup c = some n → n.isDir = false →
      w.Relinks loc c none v → Q (.ok ()) v) : (unlink s fd : Os ε Unit).Ends w Q := by
  refine ends_entry hs hfd hdir (fun e v hv hno => hfail e v hv ?_) fun c hc hsearch => ?_
  · intro c n hc _ _ hsearch
    rw [hc,hsearch] at hno
    rcases hno with hno | hno <;> cases hno
  have hget := Node.get_entry hdir c
  refine ends_syscall (fun e he => ?_) (fun e he => ?_) fun u v hv => ?_
  · refine hfail _ _ (World.quiet_tick w) fun _ _ _ _ _ _ _ => ?_
    rw [he]
    exact Option.some_ne_none e
  · refine hfail _ _ (World.quiet_tick w) fun d n hd hn hdir' _ hwrite => ?_
    cases hc.symm.trans hd
    rw [World.unlinkLoc,hget,hn,writable_entry hdir,if_pos hwrite] at he
    simp only [hdir'] at he
    cases he
  · rw [World.unlinkLoc,hget,writable_entry hdir] at hv
    cases hn : es.lookup c with
    | none =>
      rw [hn] at hv
      cases hv
    | some n =>
      rw [hn] at hv
      by_cases hwrite : a.mode.write = true
      · rw [if_pos hwrite] at hv
        by_cases hd : n.isDir = true
        · simp only [hd] at hv
          cases hv
        · rw [Bool.not_eq_true] at hd
          simp only [hd] at hv
          cases hv
          refine hok c n _ hc hn hd ⟨World.unlink_relinked hdir,?_⟩
          exact (World.keeps_unlink w _ _).trans ((World.quiet_tick _).keeps _)
      · rw [if_neg hwrite] at hv
        cases hv

/-- A file is renamed within its directory. -/
theorem ends_replace {Q : Except (Exc ε) Unit → World → Prop} {s' : Str} {c : Name} {n : Node}
    (hs : Component s) (hs' : Component s') (hfd : w.Has fd loc)
    (hdir : w.root.get loc = some (.dir a es)) (hc : nameOf s = some c)
    (hn : es.lookup c = some n) (hfile : n.isDir = false) (hfail : Fails Q w)
    (hok : ∀ d v, nameOf s' = some d → Renamed loc c d n w.root v.root → w.Keeps w.nextFd v →
      Q (.ok ()) v) : (replace s s' fd fd : Os ε Unit).Ends w Q := by
  have hb := (nameOf_eq_some hc).1
  obtain ⟨b,hb',hpath⟩ := (path_component (ε := ε) hs).resolve_left fun h => by
    rw [h.1] at hb
    cases hb
  unfold replace
  rw [hpath,Program.pure_bind]
  rcases path_component hs' with ⟨_,hpath'⟩ | ⟨b'',hb'',hpath'⟩
  · rw [hpath',Program.raise_bind]
    exact hfail _ _ (.refl w)
  rw [hpath',Program.pure_bind]
  have hold := Node.get_entry hdir c
  refine ends_syscall (fun e _ => hfail _ _ (World.quiet_tick w))
    (fun e _ => hfail _ _ (World.quiet_tick w)) fun u v hv => ?_
  rw [World.renameAt] at hv
  have hsearch : a.mode.search = true := by
    by_contra hsearch
    obtain ⟨e,he⟩ := resolving_refused (f := fun old =>
      World.resolving false (some fd) b'' fun new => World.renameLoc old new) hs hb' hfd hdir
      (Bool.not_eq_true _ ▸ hsearch)
    rw [he] at hv
    cases hv
  rw [resolving_entry hs hb' hfd hdir hsearch,hc] at hv
  dsimp only at hv
  rw [resolving_entry hs' hb'' hfd hdir hsearch] at hv
  cases hd : nameOf s' with
  | none =>
    rw [hd] at hv
    cases hv
  | some d =>
    rw [hd] at hv
    rcases World.renameLoc_ok hv (hold.trans hn) with ⟨heq,hw⟩ | ⟨hne,hreplace,rfl⟩
    · have hdc : c = d := by simpa using heq
      subst d
      rw [hw]
      refine hok c _ hd ⟨hold.trans hn,hfile,fun m hm => ?_,.inl ⟨rfl,rfl⟩⟩
        ((World.quiet_tick w).keeps _)
      cases (hold.trans hn).symm.trans hm
      exact hfile
    · have hcd : c ≠ d := fun h => hne (by rw [h])
      have hunlink := World.unlink_relinked (c := c) hdir
      obtain ⟨_,_,b,bs,_,hget,_⟩ := hunlink.get_loc
      refine hok d _ hd ⟨hold.trans hn,hfile,fun m hm => ?_,.inr ⟨hcd,_,hunlink,?_⟩⟩ ?_
      · rw [hm] at hreplace
        exact World.isDir_of_replaceable hreplace hfile
      · exact World.link_relinked hget n
      · exact (((World.keeps_unlink w _ _).trans (World.keeps_link _ _ _ _)).trans
          ((World.quiet_tick _).keeps _))

end Entry
section Descriptor
variable {fd : ℕ} {loc : Loc} {n : Node}

theorem nodeOf_eq (hfd : w.Has fd loc) (hn : w.root.get loc = some n) : w.nodeOf fd = .ok n := by
  rw [World.nodeOf,hfd.locOf]
  change (match w.root.get loc with | some n => _ | none => _) = _
  rw [hn]
  rfl

theorem ends_close {Q : Except (Exc ε) Unit → World → Prop} (hfd : w.Has fd loc)
    (hok : w.env.fault .close w.calls = none → ∀ v, w.Closed fd v → Q (.ok ()) v)
    (herror : w.env.fault .close w.calls ≠ none → ∀ e v, w.Closed fd v → Q (.error e) v) :
    (close fd : Os ε Unit).Ends w Q := by
  unfold Program.Ends close
  rw [hfd.locOf]
  cases hf : w.env.fault .close w.calls with
  | none => exact hok hf _ (World.closed_close w fd)
  | some e => exact herror (by rw [hf]; exact Option.some_ne_none e) _ _ (World.closed_close w fd)

theorem ends_close_reliable {Q : Except (Exc ε) Unit → World → Prop} (henv : w.env.Reliable)
    (hfd : w.Has fd loc) (hok : ∀ v, w.Closed fd v → Q (.ok ()) v) :
    (close fd : Os ε Unit).Ends w Q :=
  ends_close hfd (fun _ => hok) fun hf => absurd (henv _ _ (by decide)) hf

/-- Whether or not `close` fails, the descriptor is closed. -/
theorem ends_close_any {Q : Except (Exc ε) Unit → World → Prop}
    (hQ : ∀ r v, w.Closed fd v → Q r v) : (close fd : Os ε Unit).Ends w Q := by
  unfold Program.Ends close
  split <;> exact hQ _ _ (World.closed_close w fd)

theorem ends_fstat {Q : Except (Exc ε) StatResult → World → Prop} (henv : w.env.Reliable)
    (hfd : w.Has fd loc) (hn : w.root.get loc = some n)
    (hok : ∀ v, w.Quiet v → Q (.ok n.stat) v) : (fstat fd : Os ε StatResult).Ends w Q := by
  have hstat : World.fstat fd w = .ok (n.stat,w) := by
    rw [World.fstat,nodeOf_eq hfd hn]
    rfl
  refine ends_reliable henv (by decide) (fun e he => ?_) fun r v hv => ?_
  · rw [hstat] at he
    cases he
  · rw [hstat] at hv
    cases hv
    exact hok _ (World.quiet_tick w)

theorem ends_listdir {Q : Except (Exc ε) (List Str) → World → Prop} {a : Attr}
    {es : List (Name × Node)} (henv : w.env.Reliable) (hfd : w.Has fd loc)
    (hdir : w.root.get loc = some (.dir a es))
    (hok : ∀ v, w.Quiet v → Q (.ok (es.map fun e => fsdecode e.1.bytes)) v) :
    (listdir fd : Os ε (List Str)).Ends w Q := by
  have hnames : World.getdents fd w = .ok (es.map Prod.fst,w) := by
    rw [World.getdents,nodeOf_eq hfd hdir]
    rfl
  refine Program.Ends.bind (R := fun r v => r = .ok (es.map Prod.fst) ∧ w.Quiet v) ?_ ?_ ?_
  · refine ends_reliable henv (by decide) (fun e he => ?_) fun r v hv => ?_
    · rw [hnames] at he
      cases he
    · rw [hnames] at hv
      cases hv
      exact ⟨rfl,World.quiet_tick w⟩
  · rintro _ v ⟨⟨⟩,hv⟩
    rw [Program.ends_pure,List.map_map]
    exact hok v hv
  · rintro e v ⟨⟨⟩,_⟩

theorem ends_write {Q : Except (Exc ε) Unit → World → Prop} {a : Attr} {c : Name}
    {content bytes : Bytes} (hfd : w.Has fd (loc ++ [c]))
    (hfile : w.root.get (loc ++ [c]) = some (.file a content))
    (hfail : ∀ e v, w.env.fault .write w.calls = some e → w.Quiet v → Q (.error (oserror e)) v)
    (hok : ∀ b v, b.mode = a.mode → w.Relinks loc c (some (.file b (content ++ bytes))) v →
      Q (.ok ()) v) : (write fd bytes : Os ε Unit).Ends w Q := by
  refine ends_syscall (fun e he => hfail e _ he (World.quiet_tick w)) (fun e he => ?_)
    fun u v hv => ?_
  · rw [World.append,hfd.locOf] at he
    dsimp only [bind,Except.bind] at he
    rw [hfile] at he
    cases he
  · rw [World.append,hfd.locOf] at hv
    dsimp only [bind,Except.bind] at hv
    rw [hfile] at hv
    cases hv
    refine hok {a with mtimeNs := w.env.now w.calls, ctimeNs := w.env.now w.calls} _ rfl ⟨?_,?_⟩
    · exact World.update_relinked hfile _
    · exact ⟨rfl,le_rfl,fun _ _ => rfl⟩

theorem ends_read {Q : Except (Exc ε) Bytes → World → Prop} {a : Attr} {content : Bytes}
    (hfd : w.Has fd loc) (hfile : w.root.get loc = some (.file a content)) (hok : Q (.ok content) w) :
    (read fd : Os ε Bytes).Ends w Q := by
  unfold Program.Ends read
  rw [nodeOf_eq hfd hfile]
  exact hok

/-- A call that can only fail. -/
theorem ends_inert {Q : Except (Exc ε) Unit → World → Prop} {call : Call} (henv : w.env.Reliable)
    (hcall : call ∉ [Call.create,.write,.mkdir,.rename]) (hok : ∀ v, w.Quiet v → Q (.ok ()) v) :
    (syscall call fun w => .ok ((),w) : Os ε Unit).Ends w Q := by
  refine ends_reliable henv hcall (fun e he => by cases he) fun u v hv => ?_
  cases hv
  exact hok _ (World.quiet_tick _)

theorem ends_fdopen {Q : Except (Exc ε) Unit → World → Prop} (henv : w.env.Reliable)
    (hok : ∀ v, w.Quiet v → Q (.ok ()) v) : (fdopen fd : Os ε Unit).Ends w Q :=
  ends_inert henv (by decide) hok

end Descriptor

theorem checkpoint_quiet : (checkpoint : Os ε Unit).Within World.Quiet := World.quiet_tick

theorem ends_checkpoint {Q : Except (Exc ε) Unit → World → Prop} (hfail : Fails Q w)
    (hok : ∀ v, w.Quiet v → Q (.ok ()) v) : (checkpoint : Os ε Unit).Ends w Q := by
  unfold Program.Ends checkpoint
  cases w.env.interrupt w.calls with
  | true => exact hfail _ _ (World.quiet_tick w)
  | false => exact hok _ (World.quiet_tick w)

/-- Cancelled afterwards, the task does not learn that the operation was done. -/
theorem ends_awaitThread {x : Os ε α} {R : Except (Exc ε) α → World → Prop}
    (hx : ∀ v, w.Quiet v → x.Ends v R) (hcancel : Fails Q w)
    (hok : ∀ a v u, R (.ok a) v → v.Quiet u → Q (.ok a) u ∧ ∀ e, Q (.error e) u)
    (herror : ∀ e v, R (.error e) v → Q (.error e) v) : (awaitThread x).Ends w Q := by
  refine Program.Ends.bind (R := fun r v => match r with
    | .ok () => w.Quiet v
    | .error e => Q (.error e) v) ?_ (fun _ v hv => ?_) fun e v hv => hv
  · exact ends_checkpoint (fun e v hv => hcancel e v hv) fun v hv => hv
  · refine Program.Ends.bind (hx v hv) (fun a u hr => ?_) herror
    refine Program.Ends.bind (R := fun r v => match r with
      | .ok () => Q (.ok a) v
      | .error e => Q (.error e) v) ?_ (fun _ v hv => hv) fun e v hv => hv
    exact ends_checkpoint (fun e t ht => (hok a u t hr ht).2 e) fun t ht => (hok a u t hr ht).1

/-- If the task gets no file object, there may have been one that closed the descriptor. -/
theorem ends_awaitFdopen {Q : Except (Exc ε) Unit → World → Prop} {fd : ℕ}
    (hlost : ∀ e v, w.Quiet v ∨ w.Closed fd v ∧ (∃ n, w.env.freed n = true) → Q (.error e) v)
    (hok : ∀ v, w.Quiet v → Q (.ok ()) v) : (awaitFdopen fd : Os ε Unit).Ends w Q := by
  have hfail : Fails Q w := fun e v hv => hlost e v (.inl hv)
  refine Program.Ends.bind (R := fun r v => match r with
    | .ok () => w.Quiet v
    | .error e => Q (.error e) v) (ends_checkpoint hfail fun v hv => hv) (fun _ v hv => ?_)
    fun e v hv => hv
  refine Program.Ends.bind (R := fun r u => match r with
    | .ok () => v.Quiet u
    | .error e => Q (.error e) u) ?_ (fun _ u hu => ?_) fun e u hu => hu
  · refine ends_syscall (fun e _ => hfail _ _ (hv.trans (World.quiet_tick v)))
      (fun e he => nomatch he) fun _ u hu => ?_
    cases hu
    exact World.quiet_tick v
  have hwu := hv.trans hu
  refine Program.Ends.onError (R := fun r t => match r with
    | .ok () => Q (.ok ()) t
    | .error _ => w.Quiet t) (ends_checkpoint (fun e t ht => hwu.trans ht)
      fun t ht => hok t (hwu.trans ht)) (fun _ t ht => ht) fun e t ht => ?_
  cases hfreed : t.env.freed t.calls with
  | false =>
    refine ⟨?_,?_⟩
    all_goals simp only [hfreed]
    · rfl
    · exact hlost e t (.inl ht)
  | true =>
    refine ⟨?_,?_⟩
    all_goals simp only [hfreed]
    · rfl
    · exact hlost e _ (.inr ⟨ht.closed (World.closed_close t fd),t.calls,ht.env ▸ hfreed⟩)

end Os
end Python
