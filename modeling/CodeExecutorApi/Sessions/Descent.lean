import CodeExecutorApi.Posix.Leaves
import CodeExecutorApi.Python.Later
import CodeExecutorApi.Sessions.Walks

/-! The walk of `_open_parent` by itself, in any tree and whatever fails on the way. -/
namespace CodeExecutorApi
open Python Posix Machine

namespace Session

/-- The loop of `_open_parent`: the descriptor of the directory it ends in. -/
def enterParts (createDir : Bool) : ℕ → List Str → Api ℕ
  | parentFd, [] => pure parentFd
  | parentFd, pathPart :: pathParts => do
    let nextFd ← (openPart createDir parentFd pathPart).onError (Os.close parentFd)
    enterParts createDir nextFd pathParts

/-- `_open_parent` up to its `yield`. -/
def enterParent (workDirectory normalisedSubPath : Str) (createDir : Bool) : Api ℕ := do
  let parentFd ← Os.open_ workDirectory dirFlags dirMode none
  enterParts createDir parentFd (split normalisedSubPath).dropLast

theorem openParts_eq {α : Type} [Owning α] (createDir : Bool) (body : ℕ → Api α) (fd : ℕ)
    (parts : List Str) : openParts createDir body fd parts =
      enterParts createDir fd parts >>= fun fd =>
        (body fd).ensureOrDrop (Os.close fd) fun a => Os.drop (Owning.owned a) := by
  induction parts generalizing fd with
  | nil => rfl
  | cons s parts ih =>
    rw [openParts,enterParts,Program.bind_bind]
    congr 1
    funext nextFd
    exact ih nextFd

theorem openParent_owning {α : Type} [Owning α] (workDirectory p : Str) (createDir : Bool)
    (body : ℕ → Str → Api α) :
    openParent workDirectory p createDir body =
      enterParent workDirectory p createDir >>= fun fd =>
        (body fd (lastPart p)).ensureOrDrop (Os.close fd) fun a => Os.drop (Owning.owned a) := by
  unfold openParent enterParent
  rw [Program.bind_bind]
  exact congrArg (Os.open_ workDirectory dirFlags dirMode none >>= ·)
    (funext fun fd => openParts_eq createDir (fun fd => body fd (lastPart p)) fd _)

/-- Where the body returns nothing that owns a file object. -/
theorem openParent_eq {α : Type} [Owning α] (howned : ∀ a : α, Owning.owned a = none)
    (workDirectory p : Str) (createDir : Bool) (body : ℕ → Str → Api α) :
    openParent workDirectory p createDir body =
      enterParent workDirectory p createDir >>= fun fd =>
        (body fd (lastPart p)).ensure (Os.close fd) := by
  have hdrop (a : α) : (Os.drop (Owning.owned a) : Api Unit) = pure () := by
    rw [howned]
    rfl
  simp only [openParent_owning,Program.ensureOrDrop_eq hdrop]

/-- A walk made at most directories on the way to `d`, and none without leave. -/
structure Walked (createDir : Bool) (d : Loc) (w v : World) : Prop where
  grown : Grown dirMode d w.root v.root
  made : createDir = false → v.root = w.root

namespace Walked
variable {createDir : Bool} {d d' : Loc} {w v u : World}

theorem of_root (h : v.root = w.root) : Walked createDir d w v := ⟨h ▸ .refl _ _ _,fun _ => h⟩

theorem trans (h : Walked createDir d w v) (h' : Walked createDir d v u) : Walked createDir d w u :=
  ⟨h.grown.trans h'.grown,fun hc => (h'.made hc).trans (h.made hc)⟩

theorem mono (h : Walked createDir d w v) (hd : d <+: d') : Walked createDir d' w v :=
  ⟨h.grown.mono hd,h.made⟩

theorem root (h : Walked createDir d w v) (hroot : u.root = v.root) : Walked createDir d w u :=
  ⟨hroot ▸ h.grown,fun hc => hroot.trans (h.made hc)⟩

end Walked

section
variable {w : World} {fd : ℕ} {loc : Loc} {a : Attr} {es : List (Name × Node)} {s : Str}
  {createDir : Bool}

/-- Whether the directory was made or there before, nothing else was added. -/
theorem ends_mkdirIfMissing {Q : Except (Exc AppError) Unit → World → Prop}
    (hs : Component s) (hfd : w.Has fd loc) (hdir : w.root.get loc = some (.dir a es))
    (hfail : Os.Fails Q w)
    (hok : ∀ v, Grown dirMode (loc ++ way [s]) w.root v.root → w.Keeps w.nextFd v → Q (.ok ()) v) :
    (mkdirIfMissing s fd).Ends w Q := by
  have hquiet (v : World) (hv : w.Quiet v) : Q (.ok ()) v :=
    hok v (hv.root ▸ .refl _ _ _) (hv.keeps _)
  refine Program.Ends.handle (R := fun r v => match r with
    | .ok () => Q (.ok ()) v
    | .error _ => w.Quiet v) ?_ (fun _ v h => h) fun e v hv => ?_
  · refine Os.ends_mkdir hs hfd hdir (fun e v hv => hv) ?_
    intro c b v hc hn hmode hv
    refine hok v ?_ hv.keeps
    rw [way,hc]
    exact Grown.of_relinked hv.tree (by rw [Node.get_entry hdir,hn]) hmode List.prefix_rfl
  · cases e with
    | os cls errno =>
      cases cls <;> first | exact hquiet v hv | exact hfail _ v hv
    | valueError | unicodeEncodeError | cancelled | app => exact hfail _ v hv

theorem ends_openNext {Q : Except (Exc AppError) ℕ → World → Prop} {cls : OSErrorClass}
    {errnos : List Errno} (hs : Component s) (hfd : w.Has fd loc) (hdir : Enterable w.root loc)
    (hfail : Os.Fails Q w)
    (hok : ∀ c v, nameOf s = some c → Enterable w.root (loc ++ [c]) → w.Opened (loc ++ [c]) v →
      v.root = w.root → Q (.ok w.nextFd) v) :
    (mapErrno errnos cls (Os.open_ s dirFlags dirMode (some fd))).Ends w Q := by
  obtain ⟨a,es,hget,_⟩ := hdir.dir
  refine ends_mapErrno (Os.ends_openEntry hs hfd hget rfl rfl (fun e u hu => hfail _ u hu) ?_)
  intro c n u hc hsearch hn hopen hu hroot
  rw [← Node.get_entry hget] at hn
  obtain ⟨b,bs,rfl,hread⟩ := openNode_dirFlags.mp hopen
  exact hok c u hc (hdir.step hget hsearch hn hread) hu hroot

/-- How a turn of the loop from `fd` at `loc` may end. -/
def Turned (createDir : Bool) (s : Str) (fd : ℕ) (loc : Loc) (w : World) :
    Except (Exc AppError) ℕ → World → Prop
  | .ok fd', v => ∃ c, nameOf s = some c ∧ Walked createDir (loc ++ [c]) w v ∧
      Enterable v.root (loc ++ [c]) ∧ w.Keeps fd v ∧ fd ≤ fd' ∧ v.Has fd' (loc ++ [c])
  | .error _, v => Walked createDir (loc ++ way [s]) w v ∧ w.Keeps fd v

/-- The second half of a turn. If the directory behind cannot be closed, the next one stays open. -/
theorem ends_turn {v : World} (hs : Component s) (hfd : w.Has fd loc) (hdir : Enterable w.root loc)
    (hv : Walked createDir (loc ++ way [s]) w v) (hk : w.Keeps w.nextFd v) :
    (openPart false fd s).Ends v (Turned createDir s fd loc w) := by
  have hlt := hfd.lt
  refine Program.Ends.bind (R := fun r u => match r with
    | .ok fd' => fd' = v.nextFd ∧ ∃ c, nameOf s = some c ∧ Enterable v.root (loc ++ [c]) ∧
        v.Opened (loc ++ [c]) u ∧ u.root = v.root
    | .error _ => v.Quiet u) ?_ ?_ fun e u hu => ?_
  · exact ends_openNext hs (hk.has hfd) (hv.grown.stays.enterable hdir) (fun e u hu => hu)
      fun c u hc henter hu hroot => ⟨rfl,c,hc,henter,hu,hroot⟩
  · rintro _ u ⟨rfl,c,hc,henter,hu,hroot⟩
    have hway : way [s] = [c] := by rw [way,hc]; rfl
    have hclosed (x : World) (hx : u.Closed fd x) : Walked createDir (loc ++ way [s]) w x ∧
        w.Keeps fd x :=
      ⟨hv.root (hx.root.trans hroot),((hk.step hu.keeps).mono hlt.le).trans (hx.keeps le_rfl)⟩
    refine Program.Ends.bind (R := fun _ x => u.Closed fd x) (Os.ends_close_any fun _ x hx => hx)
      (fun _ x hx => ?_) fun e x hx => hclosed x hx
    obtain ⟨hw,hkeeps⟩ := hclosed x hx
    have hne : v.nextFd ≠ fd := by
      have := hk.nextFd
      omega
    have hroot' : x.root = v.root := hx.root.trans hroot
    rw [Program.ends_pure]
    exact ⟨c,hc,hway ▸ hw,hroot' ▸ henter,hkeeps,hlt.le.trans hk.nextFd,hx.has hne hu.has⟩
  · exact ⟨hv.root hu.root,(hk.step (hu.keeps _)).mono hlt.le⟩

theorem ends_openPart_any (hs : Component s) (hfd : w.Has fd loc) (hdir : Enterable w.root loc) :
    (openPart createDir fd s).Ends w (Turned createDir s fd loc w) := by
  obtain ⟨a,es,hget,_⟩ := hdir.dir
  cases createDir with
  | false => exact ends_turn hs hfd hdir (.of_root rfl) (.refl _ _)
  | true =>
    change Program.Ends (mkdirIfMissing s fd >>= fun _ => openPart false fd s) w _
    refine Program.Ends.bind (R := fun r v => w.Keeps w.nextFd v ∧
      Walked true (loc ++ way [s]) w v) ?_ (fun _ v h => ends_turn hs hfd hdir h.2 h.1)
      fun e v h => ⟨h.2,h.1.mono hfd.lt.le⟩
    refine ends_mkdirIfMissing hs hfd hget (fun e v hv => ⟨hv.keeps _,.of_root hv.root⟩) ?_
    exact fun v hg hk => ⟨hk,hg,nofun⟩

theorem ends_enterPart (hs : Component s) (hfd : w.Has fd loc) (hdir : Enterable w.root loc) :
    ((openPart createDir fd s).onError (Os.close fd)).Ends w (Turned createDir s fd loc w) := by
  refine Program.ends_onError.mpr ((ends_openPart_any hs hfd hdir).mono fun r v h => ?_)
  cases r with
  | ok fd' => exact h
  | error e =>
    refine Os.ends_close_any fun r x hx => ?_
    have hx : Walked createDir (loc ++ way [s]) w x ∧ w.Keeps fd x :=
      ⟨h.1.root hx.root,h.2.trans (hx.keeps (le_refl fd))⟩
    cases r <;> exact hx

/-- The whole walk. -/
theorem ends_enterParts {parts : List Str} {Q : Except (Exc AppError) ℕ → World → Prop}
    (hparts : ∀ s ∈ parts, Component s) (hfd : w.Has fd loc) (hdir : Enterable w.root loc)
    (herror : ∀ e v, Walked createDir (loc ++ way parts) w v → w.Keeps fd v → Q (.error e) v)
    (hok : ∀ fd' p v, place parts = some p → Walked createDir (loc ++ p) w v →
      Enterable v.root (loc ++ p) → w.Keeps fd v → fd ≤ fd' → v.Has fd' (loc ++ p) →
      Q (.ok fd') v) : (enterParts createDir fd parts).Ends w Q := by
  induction parts generalizing w fd loc with
  | nil =>
    rw [← List.append_nil loc] at hfd hdir
    exact hok fd [] w rfl (.of_root rfl) hdir (.refl _ _) le_rfl hfd
  | cons s parts ih =>
    refine Program.Ends.bind (R := Turned createDir s fd loc w)
      (ends_enterPart (hparts s List.mem_cons_self) hfd hdir) ?_ ?_
    · rintro fd' v ⟨c,hc,hw,henter,hk,hle,hhas⟩
      have hplace (p : Loc) : loc ++ [c] ++ p = loc ++ c :: p := by simp
      have hlonger (p : Loc) : loc ++ [c] <+: loc ++ c :: p := ⟨p,hplace p⟩
      refine ih (fun s hs => hparts s (List.mem_cons_of_mem _ hs)) hhas henter ?_ ?_
      · intro e u hu hk'
        rw [hplace] at hu
        refine herror e u ?_ (hk.trans (hk'.mono hle))
        rw [way,hc]
        exact (hw.mono (hlonger _)).trans hu
      · intro fd'' p u hp hu henter' hk' hle' hhas'
        rw [hplace] at hu henter' hhas'
        refine hok fd'' (c :: p) u ?_ ((hw.mono (hlonger p)).trans hu) henter'
          (hk.trans (hk'.mono hle)) (hle.trans hle') hhas'
        rw [place,hc,hp]
        rfl
    · rintro e v ⟨hw,hk⟩
      refine herror e v (hw.mono ?_) hk
      exact (List.prefix_append_right_inj loc).mpr (way_prefix_append [s] parts)

/-- The work directory is opened. -/
theorem ends_openWork {Q : Except (Exc AppError) ℕ → World → Prop} (hfail : Os.Fails Q w)
    (hok : ∀ v, w.Opened [] v → v.root = w.root → Enterable w.root [] → Q (.ok w.nextFd) v) :
    (Os.open_ rootDirectory dirFlags dirMode none : Api ℕ).Ends w Q := by
  rw [openWork_eq]
  refine Os.ends_syscall (fun e _ => hfail _ _ (World.quiet_tick w))
    (fun e _ => hfail _ _ (World.quiet_tick w)) fun m v hv => ?_
  rw [openAt_root] at hv
  cases ho : World.openNode w.root dirFlags with
  | error e =>
    rw [ho] at hv
    cases hv
  | ok u =>
    rw [ho] at hv
    cases hv
    obtain ⟨a,es,hroot,hread⟩ := openNode_dirFlags.mp ho
    exact hok _ (World.opened_alloc w []) rfl (.root (by rw [hroot]; rfl) hread)

theorem ends_enterParent {p : Str} {Q : Except (Exc AppError) ℕ → World → Prop} (hp : Normalised p)
    (herror : ∀ e v, Walked createDir (way (split p).dropLast) w v → w.Keeps w.nextFd v →
      Q (.error e) v)
    (hok : ∀ fd loc v, place (split p).dropLast = some loc → Walked createDir loc w v →
      Enterable v.root loc → w.Keeps w.nextFd v → w.nextFd ≤ fd → v.Has fd loc → Q (.ok fd) v) :
    (enterParent rootDirectory p createDir).Ends w Q := by
  refine Program.Ends.bind (R := fun r v => match r with
    | .ok fd => fd = w.nextFd ∧ w.Opened [] v ∧ v.root = w.root ∧ Enterable w.root []
    | .error _ => w.Quiet v) ?_ ?_ fun e v hv => herror e v (.of_root hv.root) (hv.keeps _)
  · exact ends_openWork (fun e v hv => hv) fun v hv hroot henter => ⟨rfl,hv,hroot,henter⟩
  · rintro _ v ⟨rfl,hv,hroot,henter⟩
    refine ends_enterParts (fun s hs => component_of_mem hp (List.dropLast_subset _ hs)) hv.has
      (hroot ▸ henter) ?_ ?_
    · exact fun e u hu hk => herror e u ((Walked.of_root hroot).trans hu) (hv.keeps.trans hk)
    · exact fun fd loc u hloc hu henter' hk hle hhas =>
        hok fd loc u hloc ((Walked.of_root hroot).trans hu) henter' (hv.keeps.trans hk) hle hhas

theorem mapErrno_later {α : Type} {errnos : List Errno} {cls : OSErrorClass} {x : Api α}
    (hx : x.Within World.Later) : (mapErrno errnos cls x).Within World.Later := by
  refine hx.handle fun e => ?_
  cases e with
  | os c errno =>
    cases errno with
    | none => exact .raise _
    | some e =>
      dsimp only
      split_ifs <;> exact .raise _
  | valueError | unicodeEncodeError | cancelled | app => exact .raise _

theorem enterPart_later (fd : ℕ) (s : Str) :
    ((openPart false fd s).onError (Os.close fd)).Within World.Later := by
  refine Program.Within.onError ?_ (Os.close_later fd)
  exact (mapErrno_later (Os.open_later s _ _ _)).bind fun _ => (Os.close_later fd).bind fun _ =>
    .pure _

theorem enterParts_later (fd : ℕ) (parts : List Str) :
    (enterParts false fd parts).Within World.Later := by
  induction parts generalizing fd with
  | nil => exact .pure _
  | cons s parts ih => exact (enterPart_later fd s).bind fun fd' => ih fd'

theorem enterParent_later (workDirectory p : Str) :
    (enterParent workDirectory p false).Within World.Later :=
  (Os.open_later _ _ _ _).bind fun fd => enterParts_later fd _

/-- The way to a place that can be entered is gone again when nothing fails. -/
theorem ends_enterPart_calm {c : Name} {p : Loc} {Q : Except (Exc AppError) ℕ → World → Prop}
    (hcalm : w.Calm) (hs : Component s) (hc : nameOf s = some c) (hfd : w.Has fd loc)
    (henter : Enterable w.root (loc ++ c :: p))
    (hok : ∀ v, v.root = w.root → w.Keeps fd v → v.Has w.nextFd (loc ++ [c]) →
      Q (.ok w.nextFd) v) : ((openPart false fd s).onError (Os.close fd)).Ends w Q := by
  have hlt := hfd.lt
  have hne : loc ≠ loc ++ c :: p := fun h => by simpa using congrArg List.length h
  obtain ⟨a,es,hget,_,hsearch⟩ := henter loc (List.prefix_append _ _)
  obtain ⟨b,bs,hget',hread,_⟩ := henter (loc ++ [c])
    ((List.prefix_append_right_inj loc).mpr ⟨p,rfl⟩)
  have hentry : es.lookup c = some (.dir b bs) := by rw [← Node.get_entry hget,hget']
  have hopens : World.openNode (.dir b bs) dirFlags = .ok () := openNode_dirFlags.mpr ⟨b,bs,rfl,hread⟩
  refine Program.Ends.onError (R := fun r v => r = .ok w.nextFd ∧ v.root = w.root ∧ w.Keeps fd v ∧
    v.Has w.nextFd (loc ++ [c])) ?_ ?_ fun e v h => nomatch h.1
  · refine Program.Ends.bind (R := fun r v => w.Later v ∧ r = .ok w.nextFd ∧ v.root = w.root ∧
      w.Opened (loc ++ [c]) v) ?_ ?_ fun e v h => nomatch h.2.1
    · refine Program.Ends.within ?_ (mapErrno_later (Os.open_later s _ _ _))
      refine ends_mapErrno (Os.ends_open (hcalm _ (by simp) _ le_rfl) hs hfd hget (hsearch hne) rfl
        rfl (fun hno => ?_) (fun d e hd he => ?_) fun d n v hd hn _ hv hroot => ?_)
      · rw [hc] at hno
        cases hno
      · cases hc.symm.trans hd
        rw [hentry] at he
        cases he.symm.trans hopens
      · cases hc.symm.trans hd
        exact ⟨rfl,hroot,hv⟩
    · rintro _ v ⟨hlater,⟨⟩,hroot,hv⟩
      refine Program.Ends.bind (R := fun r x => r = .ok () ∧ v.Closed fd x) ?_ ?_
        fun e x h => nomatch h.1
      · refine Os.ends_close (hv.keeps.has hfd) (fun _ x hx => ⟨rfl,hx⟩) fun hno => ?_
        exact absurd ((hcalm.later hlater) _ (by simp) _ le_rfl) hno
      · rintro _ x ⟨-,hx⟩
        exact ⟨rfl,hx.root.trans hroot,(hv.keeps.mono hlt.le).trans (hx.keeps le_rfl),
          hx.has hlt.ne' hv.has⟩
  · rintro _ v ⟨⟨⟩,hroot,hk,hhas⟩
    exact hok v hroot hk hhas

theorem ends_enterParts_calm {parts : List Str} {p : Loc}
    {Q : Except (Exc AppError) ℕ → World → Prop} (hcalm : w.Calm)
    (hparts : ∀ s ∈ parts, Component s) (hp : place parts = some p) (hfd : w.Has fd loc)
    (henter : Enterable w.root (loc ++ p))
    (hok : ∀ fd' v, w.Later v → v.root = w.root → w.Keeps fd v → fd ≤ fd' → v.Has fd' (loc ++ p) →
      Q (.ok fd') v) : (enterParts false fd parts).Ends w Q := by
  induction parts generalizing w fd loc p with
  | nil =>
    cases hp
    rw [List.append_nil] at hok
    exact hok fd w (Std.Refl.refl w) rfl (.refl _ _) le_rfl hfd
  | cons s parts ih =>
    rw [place,Option.bind_eq_some_iff] at hp
    obtain ⟨c,hc,hp⟩ := hp
    obtain ⟨q,hq,rfl⟩ := Option.map_eq_some_iff.mp hp
    have hplace : loc ++ c :: q = loc ++ [c] ++ q := by simp
    have hlt := hfd.lt
    refine Program.Ends.bind (R := fun r v => w.Later v ∧ r = .ok w.nextFd ∧ v.root = w.root ∧
      w.Keeps fd v ∧ v.Has w.nextFd (loc ++ [c])) ?_ ?_ fun e v h => by cases h.2.1
    · refine Program.Ends.within ?_ (enterPart_later fd s)
      exact ends_enterPart_calm hcalm (hparts s List.mem_cons_self) hc hfd henter
        fun v hroot hk hhas => ⟨rfl,hroot,hk,hhas⟩
    · rintro _ v ⟨hlater,⟨⟩,hroot,hk,hhas⟩
      rw [hplace] at henter hok
      refine ih (hcalm.later hlater) (fun s hs => hparts s (List.mem_cons_of_mem _ hs)) hq hhas
        (hroot ▸ henter) fun fd' u hlater' hroot' hk' hle hhas' => ?_
      exact hok fd' u (IsTrans.trans _ _ _ hlater hlater') (hroot'.trans hroot)
        (hk.trans (hk'.mono hlt.le)) (hlt.le.trans hle) hhas'

theorem ends_enterParent_calm {p : Str} {Q : Except (Exc AppError) ℕ → World → Prop}
    (hcalm : w.Calm) (hp : Normalised p) (hloc : place (split p).dropLast = some loc)
    (henter : Enterable w.root loc)
    (hok : ∀ fd v, w.Later v → v.root = w.root → w.Keeps w.nextFd v → w.nextFd ≤ fd →
      v.Has fd loc → Q (.ok fd) v) : (enterParent rootDirectory p false).Ends w Q := by
  obtain ⟨a,es,hget,hread,_⟩ := henter [] List.nil_prefix
  refine Program.Ends.bind (R := fun r v => w.Later v ∧ r = .ok w.nextFd ∧ w.Opened [] v ∧
    v.root = w.root) ?_ ?_ fun e v h => nomatch h.2.1
  · refine Program.Ends.within ?_ (Os.open_later _ _ _ _)
    have hopens : World.openNode w.root dirFlags = .ok () :=
      openNode_dirFlags.mpr ⟨a,es,Option.some.inj hget,hread⟩
    rw [openWork_eq]
    refine Os.ends_syscall (fun e he => ?_) (fun e he => ?_) fun m v hv => ?_
    · rw [hcalm _ (by simp) _ le_rfl] at he
      cases he
    · rw [openAt_root,hopens] at he
      cases he
    · rw [openAt_root,hopens] at hv
      cases hv
      exact ⟨rfl,World.opened_alloc w [],rfl⟩
  · rintro _ v ⟨hlater,⟨⟩,hv,hroot⟩
    refine ends_enterParts_calm (hcalm.later hlater)
      (fun s hs => component_of_mem hp (List.dropLast_subset _ hs)) hloc hv.has (hroot ▸ henter) ?_
    exact fun fd u hlater' hroot' hk hle hhas => hok fd u (IsTrans.trans _ _ _ hlater hlater')
      (hroot'.trans hroot) (hv.keeps.trans hk) hle hhas

end
end Session
end CodeExecutorApi
