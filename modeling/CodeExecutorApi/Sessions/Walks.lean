import CodeExecutorApi.Sessions.Containment
import CodeExecutorApi.Sessions.Places

/-! Walks in a session whose directories can be traversed: where they lead, and what they make on
the way. The session tree is the whole file system here. -/
namespace CodeExecutorApi
open Python Posix Machine

namespace Session

/-- What `mapErrno` makes of an exception. -/
def mapped (errnos : List Errno) (cls : OSErrorClass) : Exc AppError → Exc AppError
  | .os c (some e) => if e ∈ errnos then .os cls none else .os c (some e)
  | e => e

theorem ends_mapErrno {α : Type} {errnos : List Errno} {cls : OSErrorClass} {x : Api α} {w : World}
    {Q : Except (Exc AppError) α → World → Prop}
    (hx : x.Ends w fun r v => Q (r.mapError (mapped errnos cls)) v) :
    (mapErrno errnos cls x).Ends w Q := by
  refine hx.handle (fun a v h => h) fun e v h => ?_
  change Q (.error (mapped errnos cls e)) v at h
  cases e with
  | os c errno =>
    cases errno with
    | none => exact h
    | some e =>
      dsimp only
      rw [mapped] at h
      split_ifs at h ⊢ <;> exact h
  | valueError | unicodeEncodeError | cancelled | app => exact h

theorem mapped_badName {errnos : List Errno} {cls : OSErrorClass} {e : Exc AppError}
    (h : IsBadName e) (herrnos : .enametoolong ∉ errnos) : mapped errnos cls e = e := by
  rcases h with rfl | rfl
  · rfl
  · exact if_neg herrnos

section
variable {w : World} {fd : ℕ} {loc : Loc} {a : Attr} {es : List (Name × Node)} {s : Str}

/-- A directory is opened by its name. What is no directory is reported as one of two errors. -/
theorem ends_openDir {cls : OSErrorClass} {Q : Except (Exc AppError) ℕ → World → Prop}
    (henv : w.env.Reliable) (ht : Traversable w.root) (hs : Component s) (hfd : w.Has fd loc)
    (hdir : w.root.get loc = some (.dir a es))
    (hbad : nameOf s = none → ∀ e v, w.Quiet v → IsBadName e → Q (.error e) v)
    (hmiss : ∀ c, nameOf s = some c → (∀ b bs, w.root.get (loc ++ [c]) ≠ some (.dir b bs)) →
      ∀ e v, w.Quiet v → e = .os .fileNotFound (some .enoent) ∨ e = .os cls none → Q (.error e) v)
    (hok : ∀ c b bs v, nameOf s = some c → w.root.get (loc ++ [c]) = some (.dir b bs) →
      w.Opened (loc ++ [c]) v → v.root = w.root → Q (.ok w.nextFd) v) :
    (mapErrno [.eloop,.enotdir] cls (Os.open_ s dirFlags dirMode (some fd))).Ends w Q := by
  refine ends_mapErrno (Os.ends_open (henv _ _ (by decide)) hs hfd hdir (ht.mode loc a es hdir).2 rfl rfl
    (fun hnone e v hv he => ?_) (fun c e hc he v hv => ?_) fun c n v hc hn ho hv hroot => ?_)
  · change Q (.error (mapped _ cls e)) v
    rw [mapped_badName he (by decide)]
    exact hbad hnone e v hv he
  · have hget := Node.get_entry hdir c
    rw [← hget] at he
    cases hn : w.root.get (loc ++ [c]) with
    | none =>
      rw [hn] at he
      cases he
      exact hmiss c hc (fun b bs h => by rw [hn] at h; cases h) _ v hv (.inl rfl)
    | some n =>
      rw [hn] at he
      cases n with
      | dir b bs =>
        change (if b.mode.read = true then Except.ok () else .error .eacces) = .error e at he
        rw [if_pos (ht.mode _ b bs hn).1] at he
        cases he
      | file | symlink | special =>
        cases he
        exact hmiss c hc (fun b bs h => by rw [hn] at h; cases h) _ v hv (.inr rfl)
  · have hget := Node.get_entry hdir c
    rw [hn] at hget
    cases n with
    | dir b bs => exact hok c b bs v hc hget hv hroot
    | file | symlink | special => cases ho

/-- The next directory of a walk. The one before it is closed. -/
theorem ends_openPart {Q : Except (Exc AppError) ℕ → World → Prop} (henv : w.env.Reliable)
    (ht : Traversable w.root) (hs : Component s) (hfd : w.Has fd loc)
    (hdir : w.root.get loc = some (.dir a es))
    (herror : ∀ r e v, dirFrom w.root loc [s] = .error r → r.Raises e → w.Quiet v → Q (.error e) v)
    (hok : ∀ c b bs v, nameOf s = some c → w.root.get (loc ++ [c]) = some (.dir b bs) →
      v.root = w.root → w.Keeps fd v → v.Has w.nextFd (loc ++ [c]) → Q (.ok w.nextFd) v) :
    (openPart false fd s).Ends w Q := by
  change Program.Ends ((mapErrno _ _ _) >>= fun nextFd => Os.close fd >>= fun _ => pure nextFd) w Q
  have hlt := hfd.lt
  refine Program.Ends.bind (R := fun r v => match r with
    | .ok nextFd => nextFd = w.nextFd ∧ w.Keeps w.nextFd v ∧ v.root = w.root ∧
        ∃ c b bs, nameOf s = some c ∧ w.root.get (loc ++ [c]) = some (.dir b bs) ∧
          v.Has w.nextFd (loc ++ [c])
    | .error e => Q (.error e) v) ?_ ?_ fun e v h => h
  · refine ends_openDir henv ht hs hfd hdir (fun hnone e v hv he => ?_)
      (fun c hc hno e v hv he => ?_) fun c b bs v hc hget hv hroot => ?_
    · exact herror .badName e v (by rw [dirFrom,hnone]) he hv
    · refine herror .missing e v ?_ ?_ hv
      · rw [dirFrom,hc]
        dsimp only
        split
        · exact absurd ‹_› (hno _ _)
        · rfl
      · rcases he with rfl | rfl
        · exact ⟨_,rfl⟩
        · exact ⟨_,rfl⟩
    · exact ⟨rfl,hv.keeps,hroot,c,b,bs,hc,hget,hv.has⟩
  · rintro _ v ⟨rfl,hkeeps,hroot,c,b,bs,hc,hget,hhas⟩
    refine Program.Ends.bind (R := fun r u => r = .ok () ∧ v.Closed fd u) ?_ ?_ ?_
    · exact Os.ends_close_reliable (hkeeps.env ▸ henv) (hkeeps.has hfd) fun u hu => ⟨rfl,hu⟩
    · rintro _ u ⟨-,hu⟩
      refine hok c b bs u hc hget (hu.root.trans hroot) ?_ (hu.has (by omega) hhas)
      exact (hkeeps.mono hlt.le).trans (hu.keeps le_rfl)
    · rintro e u ⟨⟨⟩,_⟩

/-- A walk that makes nothing. -/
theorem ends_openParts {α : Type} [Owning α] {body : ℕ → Api α}
    {Q : Except (Exc AppError) α → World → Prop} {parts : List Str} (henv : w.env.Reliable) (ht : Traversable w.root)
    (hparts : ∀ s ∈ parts, Component s) (hfd : w.Has fd loc)
    (hdir : ∃ a es, w.root.get loc = some (.dir a es))
    (herror : ∀ r e v, dirFrom w.root loc parts = .error r → r.Raises e → v.root = w.root →
      w.Keeps fd v → Q (.error e) v)
    (hbody : ∀ fd' loc' v, dirFrom w.root loc parts = .ok loc' → v.root = w.root → w.Keeps fd v →
      fd ≤ fd' → v.Has fd' loc' → (body fd').Ends v fun r u =>
        v.Keeps v.nextFd u ∧ ∀ x, u.Closed fd' x → Q r x) :
    (openParts false body fd parts).Ends w Q := by
  induction parts generalizing w fd loc with
  | nil =>
    refine (hbody fd loc w rfl rfl (.refl _ _) le_rfl hfd).ensureOrDrop fun r u hu => ?_
    exact Os.ends_close_reliable (hu.1.env ▸ henv) (hu.1.has hfd) fun x hx => ⟨rfl,hu.2 x hx⟩
  | cons s parts ih =>
    obtain ⟨a,es,hdir⟩ := hdir
    have hlt := hfd.lt
    refine Program.Ends.bind (R := fun r v => match r with
      | .ok nextFd => nextFd = w.nextFd ∧ w.Keeps fd v ∧ v.root = w.root ∧
          ∃ c b bs, nameOf s = some c ∧ w.root.get (loc ++ [c]) = some (.dir b bs) ∧
            v.Has w.nextFd (loc ++ [c])
      | .error e => Q (.error e) v) ?_ ?_ fun e v h => h
    · refine Program.Ends.onError (R := fun r v => match r with
        | .ok nextFd => nextFd = w.nextFd ∧ w.Keeps fd v ∧ v.root = w.root ∧
            ∃ c b bs, nameOf s = some c ∧ w.root.get (loc ++ [c]) = some (.dir b bs) ∧
              v.Has w.nextFd (loc ++ [c])
        | .error e => w.Quiet v ∧ ∃ r, dirFrom w.root loc [s] = .error r ∧ r.Raises e) ?_
        (fun a v h => h) fun e v h => ?_
      · exact ends_openPart henv ht (hparts s List.mem_cons_self) hfd hdir
          (fun r e v hr he hv => ⟨hv,r,hr,he⟩)
          fun c b bs v hc hget hroot hkeeps hhas => ⟨rfl,hkeeps,hroot,c,b,bs,hc,hget,hhas⟩
      · obtain ⟨hv,r,hr,he⟩ := h
        refine Os.ends_close_reliable (hv.env ▸ henv) ((hv.keeps _).has hfd) fun x hx => ⟨rfl,?_⟩
        exact herror r e x (dirFrom_cons_of_error hr) he (hx.root.trans hv.root)
          ((hv.keeps fd).trans (hx.keeps le_rfl))
    · rintro _ v ⟨rfl,hkeeps,hroot,c,b,bs,hc,hget,hhas⟩
      have hfrom := dirFrom_cons_of_dir parts hc hget
      refine ih (hkeeps.env ▸ henv) (hroot ▸ ht)
        (fun s hs => hparts s (List.mem_cons_of_mem _ hs)) hhas ⟨b,bs,hroot ▸ hget⟩ ?_ ?_
      · intro r e u hr he hu hk
        rw [hroot,← hfrom] at hr
        exact herror r e u hr he (hu.trans hroot) (hkeeps.trans (hk.mono hlt.le))
      · intro fd' loc' u hr hu hk hle hh
        rw [hroot,← hfrom] at hr
        exact hbody fd' loc' u hr (hu.trans hroot) (hkeeps.trans (hk.mono hlt.le)) (by omega) hh

/-- The name the last component of a path gives. -/
def lastPart (p : Str) : Str := (split p).getLast?.getD []

theorem split_eq (p : Str) : split p = (split p).dropLast ++ [lastPart p] := by
  have hne : split p ≠ [] := List.splitOn_ne_nil slash p
  rw [lastPart,List.getLast?_eq_some_getLast hne,Option.getD_some]
  exact (List.dropLast_append_getLast hne).symm

theorem place_split {p : Str} {loc : Loc} (h : place (split p) = some loc) :
    ∃ q c, place (split p).dropLast = some q ∧ nameOf (lastPart p) = some c ∧ loc = q ++ [c] := by
  rw [split_eq,place_append,Option.bind_eq_some_iff] at h
  obtain ⟨q,hq,h⟩ := h
  obtain ⟨c,hc,rfl⟩ := Option.map_eq_some_iff.mp h
  exact ⟨q,c,hq,hc,rfl⟩

theorem component_of_mem {p : Str} (hp : Normalised p) {s : Str} (hs : s ∈ split p) :
    Component s := ⟨hp.plain s hs,hp.nul_notMem s hs⟩

theorem component_lastPart {p : Str} (hp : Normalised p) : Component (lastPart p) := by
  refine component_of_mem hp ?_
  rw [split_eq]
  simp

theorem openNode_dirFlags {n : Node} :
    World.openNode n dirFlags = .ok () ↔ ∃ a es, n = .dir a es ∧ a.mode.read = true := by
  cases n with
  | dir a es =>
    change (if a.mode.read = true then Except.ok () else .error Errno.eacces) = .ok () ↔ _
    constructor
    · intro h
      split_ifs at h with hread
      exact ⟨a,es,rfl,hread⟩
    · rintro ⟨b,bs,hb,hread⟩
      cases hb
      exact if_pos hread
  | file | symlink | special => exact ⟨nofun,fun ⟨_,_,h,_⟩ => nomatch h⟩

theorem openAt_root (w : World) : World.openAt none [separator] dirFlags dirMode w =
    (World.openNode w.root dirFlags).map fun _ => w.alloc [] := by
  change (do let loc ← namei w.root false w.env.maxLinks [] [separator]
             World.openLoc dirFlags dirMode loc w) = _
  rw [namei_root]
  rfl

theorem openWork_eq : (Os.open_ rootDirectory dirFlags dirMode none : Api ℕ) =
    Os.syscall .open (World.openAt none [separator] dirFlags dirMode) := rfl

/-- The session directory is opened if it can be listed. -/
theorem ends_openListed {Q : Except (Exc AppError) ℕ → World → Prop} (henv : w.env.Reliable)
    {a : Attr} {es : List (Name × Node)} (hroot : w.root = .dir a es) (hread : a.mode.read = true)
    (hok : ∀ v, w.Opened [] v → v.root = w.root → Q (.ok w.nextFd) v) :
    (Os.open_ rootDirectory dirFlags dirMode none : Api ℕ).Ends w Q := by
  have hopens : World.openNode w.root dirFlags = .ok () :=
    openNode_dirFlags.mpr ⟨a,es,hroot,hread⟩
  rw [openWork_eq]
  refine Os.ends_reliable henv (by decide) (fun e he => ?_) fun m v hv => ?_
  · rw [openAt_root,hopens] at he
    cases he
  · rw [openAt_root,hopens] at hv
    cases hv
    exact hok _ (World.opened_alloc w []) rfl

theorem ends_openRoot {Q : Except (Exc AppError) ℕ → World → Prop} (henv : w.env.Reliable)
    (ht : Traversable w.root)
    (hok : ∀ v, w.Opened [] v → v.root = w.root → Q (.ok w.nextFd) v) :
    (Os.open_ rootDirectory dirFlags dirMode none : Api ℕ).Ends w Q := by
  obtain ⟨a,es,hroot⟩ := Node.eq_dir ht.root
  exact ends_openListed henv hroot (ht.mode [] a es (by rw [hroot]; rfl)).1 hok

variable {α : Type} [Owning α] {body : ℕ → Str → Api α}
  {Q : Except (Exc AppError) α → World → Prop} {p : Str}

/-- `_open_parent` without `create_dir`. -/
theorem ends_openParent (henv : w.env.Reliable) (ht : Traversable w.root) (hp : Normalised p)
    (herror : ∀ r e v, dirFrom w.root [] (split p).dropLast = .error r → r.Raises e →
      v.root = w.root → w.Keeps w.nextFd v → Q (.error e) v)
    (hbody : ∀ fd loc b bs v, dirFrom w.root [] (split p).dropLast = .ok loc →
      w.root.get loc = some (.dir b bs) → v.root = w.root → w.Keeps w.nextFd v → w.nextFd ≤ fd →
      v.Has fd loc → (body fd (lastPart p)).Ends v fun r u =>
        v.Keeps v.nextFd u ∧ ∀ x, u.Closed fd x → Q r x) :
    (openParent rootDirectory p false body).Ends w Q := by
  refine Program.Ends.bind (R := fun r v => r = .ok w.nextFd ∧ w.Opened [] v ∧ v.root = w.root)
    ?_ ?_ ?_
  · exact ends_openRoot henv ht fun v hv hroot => ⟨rfl,hv,hroot⟩
  · rintro _ v ⟨⟨⟩,hv,hroot⟩
    have hdir : ∃ a es, w.root.get [] = some (.dir a es) := by
      obtain ⟨a,es,h⟩ := Node.eq_dir ht.root
      exact ⟨a,es,by rw [h]; rfl⟩
    refine ends_openParts (hv.keeps.env ▸ henv) (hroot ▸ ht)
      (fun s hs => component_of_mem hp (List.dropLast_subset _ hs)) hv.has (hroot ▸ hdir) ?_ ?_
    · intro r e u hr he hu hk
      exact herror r e u (hroot ▸ hr) he (hu.trans hroot) (hv.keeps.trans hk)
    · intro fd loc u hr hu hk hle hhas
      rw [hroot] at hr
      obtain ⟨b,bs,hb⟩ := dirFrom_dir hr hdir
      exact hbody fd loc b bs u hr hb (hu.trans hroot) (hv.keeps.trans hk) hle hhas
  · rintro e v ⟨⟨⟩,_⟩

end
end Session

end CodeExecutorApi
