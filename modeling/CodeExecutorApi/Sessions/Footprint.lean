import CodeExecutorApi.Posix.Inodes
import CodeExecutorApi.Sessions.Descriptors
import CodeExecutorApi.Sessions.Removal

/-! The file operations of a session write to no files but those that they create themselves. -/
namespace Posix
namespace World

/-- A call that a process may make that has created no file. -/
def Owned {α : Type} (f : World → Except Errno (α × World)) : Prop :=
  ∀ w a v, f w = .ok (a,v) → ∃ made, Alters ∅ w made v.root

section Owned
variable {α : Type}

theorem owned_resolving {follow : Bool} {dirFd : Option ℕ} {path : Bytes}
    {f : Loc → World → Except Errno (α × World)} (hf : ∀ loc, Owned (f loc)) :
    Owned (resolving follow dirFd path f) := by
  intro w a v h
  obtain ⟨loc,hloc⟩ := resolving_ok h
  exact hf loc w a v hloc

/-- A call that only looks at the tree. -/
theorem owned_of_root {f : World → Except Errno (α × World)}
    (h : ∀ w a v, f w = .ok (a,v) → v.root = w.root) : Owned f :=
  fun w a v hf => ⟨∅,h w a v hf ▸ .rest⟩

theorem owned_openLoc (flags : Flags) (mode : Mode) (loc : Loc) :
    Owned (openLoc flags mode loc) := by
  intro w fd v h
  cases hget : w.root.get loc with
  | some n =>
    rw [openLoc,hget] at h
    dsimp only at h
    split_ifs at h
    cases ho : openNode n flags with
    | error e =>
      rw [ho] at h
      cases h
    | ok =>
      rw [ho] at h
      cases h
      exact ⟨∅,.rest⟩
  | none =>
    rw [openLoc,hget] at h
    dsimp only at h
    split_ifs at h
    cases hw : w.writable loc with
    | error e =>
      rw [hw] at h
      cases h
    | ok =>
      rw [hw] at h
      cases h
      exact ⟨_,.create hget⟩

theorem owned_mkdirLoc (mode : Mode) (loc : Loc) : Owned (mkdirLoc mode loc) := by
  intro w r v h
  cases hget : w.root.get loc with
  | some n =>
    rw [mkdirLoc,hget] at h
    cases h
  | none =>
    rw [mkdirLoc,hget] at h
    cases hw : w.writable loc with
    | error e =>
      rw [hw] at h
      cases h
    | ok =>
      rw [hw] at h
      cases h
      exact ⟨_,.mkdir hget⟩

theorem alters_unlinkLoc (loc : Loc) (w : World) (r : Unit) (v : World)
    (h : unlinkLoc loc w = .ok (r,v)) : Alters ∅ w ∅ v.root := by
  have hv := unlinkLoc_ok h
  subst v
  cases hget : w.root.get loc with
  | none =>
    rw [unlinkLoc,hget] at h
    cases h
  | some n =>
    cases hn : n.isDir with
    | false => exact .unlink hget hn
    | true =>
      rw [unlinkLoc,hget] at h
      cases hw : w.writable loc with
      | error e =>
        rw [hw] at h
        cases h
      | ok =>
        rw [hw] at h
        change (if n.isDir = true then _ else _) = _ at h
        rw [if_pos hn] at h
        cases h

theorem owned_unlinkLoc (loc : Loc) : Owned (unlinkLoc loc) :=
  fun w r v h => ⟨∅,alters_unlinkLoc loc w r v h⟩

theorem owned_renameLoc (old new : Loc) : Owned (renameLoc old new) := by
  intro w r v h
  cases hget : w.root.get old with
  | none =>
    rw [renameLoc,hget] at h
    cases h
  | some n =>
    rcases renameLoc_ok h hget with ⟨_,rfl⟩ | ⟨hne,_,rfl⟩
    · exact ⟨_,.rest⟩
    refine ⟨_,.rename hget fun hdir hbelow => ?_⟩
    rw [renameLoc,hget] at h
    cases hw : w.writable old with
    | error e =>
      rw [hw] at h
      cases h
    | ok =>
      cases hw' : w.writable new with
      | error e =>
        rw [hw,hw'] at h
        cases h
      | ok =>
        rw [hw,hw'] at h
        change (if old = new then _ else if _ then _ else _) = _ at h
        rw [if_neg hne,if_pos ⟨hdir,hbelow⟩] at h
        cases h

theorem owned_statLoc (loc : Loc) : Owned (statLoc loc) := by
  refine owned_of_root fun w st v h => ?_
  unfold statLoc at h
  split at h
  · cases h
    rfl
  · cases h

theorem counted_statLoc (loc : Loc) : Counted (statLoc loc) := by
  intro w st v h
  unfold statLoc at h
  split at h
  · cases h
    exact ⟨rfl,rfl⟩
  · cases h

theorem fstat_ok {fd : ℕ} {w v : World} {st : StatResult} (h : fstat fd w = .ok (st,v)) :
    v = w := by
  unfold fstat at h
  cases hn : w.nodeOf fd with
  | error e =>
    rw [hn] at h
    cases h
  | ok n =>
    rw [hn] at h
    cases h
    rfl

theorem getdents_ok {fd : ℕ} {w v : World} {names : List Name}
    (h : getdents fd w = .ok (names,v)) : v = w := by
  unfold getdents at h
  cases hn : w.nodeOf fd with
  | error e =>
    rw [hn] at h
    cases h
  | ok n =>
    rw [hn] at h
    change (if n.isDir = true then _ else _) = _ at h
    split_ifs at h
    cases h
    rfl

end Owned
end World
end Posix

namespace Python
open Machine Posix

namespace Os
variable {ε α : Type}

theorem syscall_reaches {call : Call} {f : World → Except Errno (α × World)}
    (hcounted : World.Counted f) (howned : World.Owned f) :
    (syscall call f : Os ε α).Within World.Reaches := by
  intro w
  unfold syscall
  cases w.env.fault call w.calls with
  | some e => exact World.reaches_tick w
  | none =>
    dsimp only
    rcases hfw : f w with e | ⟨a,v⟩
    · exact World.reaches_tick w
    · obtain ⟨henv,hcalls⟩ := hcounted w a v hfw
      obtain ⟨made,halters⟩ := howned w a v hfw
      have hlt : w.calls < v.tick.calls := hcalls ▸ Nat.lt_succ_self _
      exact ⟨made,.step .refl ⟨henv,hlt.le⟩ (.inr hlt) halters⟩

theorem path_reaches (s : Str) : (path s : Os ε Bytes).Within World.Reaches := by
  unfold path
  split
  · exact .raise _
  · split_ifs
    · exact .raise _
    · exact .pure _

theorem open_reaches (s : Str) (flags : Flags) (mode : Mode) (dirFd : Option ℕ) :
    (open_ s flags mode dirFd : Os ε ℕ).Within World.Reaches :=
  (path_reaches s).bind fun _ => syscall_reaches
    (World.counted_resolving fun _ => World.counted_openLoc _ _ _)
    (World.owned_resolving fun _ => World.owned_openLoc _ _ _)

theorem mkdir_reaches (s : Str) (mode : Mode) (fd : ℕ) :
    (mkdir s mode fd : Os ε Unit).Within World.Reaches :=
  (path_reaches s).bind fun _ => syscall_reaches
    (World.counted_resolving fun _ => World.counted_mkdirLoc _ _)
    (World.owned_resolving fun _ => World.owned_mkdirLoc _ _)

theorem unlink_reaches (s : Str) (fd : ℕ) : (unlink s fd : Os ε Unit).Within World.Reaches :=
  (path_reaches s).bind fun _ => syscall_reaches (World.counted_resolving World.counted_unlinkLoc)
    (World.owned_resolving World.owned_unlinkLoc)

theorem replace_reaches (src dst : Str) (srcFd dstFd : ℕ) :
    (replace src dst srcFd dstFd : Os ε Unit).Within World.Reaches :=
  (path_reaches src).bind fun _ => (path_reaches dst).bind fun _ => syscall_reaches
    (World.counted_resolving fun _ => World.counted_resolving fun _ => World.counted_renameLoc _ _)
    (World.owned_resolving fun _ => World.owned_resolving fun _ => World.owned_renameLoc _ _)

theorem stat_reaches (s : Str) (fd : ℕ) : (stat s fd : Os ε StatResult).Within World.Reaches :=
  (path_reaches s).bind fun _ => syscall_reaches (World.counted_resolving World.counted_statLoc)
    (World.owned_resolving World.owned_statLoc)

theorem fstat_reaches (fd : ℕ) : (fstat fd : Os ε StatResult).Within World.Reaches :=
  syscall_reaches (fun _ _ _ h => by rw [World.fstat_ok h]; exact ⟨rfl,rfl⟩)
    (World.owned_of_root fun _ _ _ h => by rw [World.fstat_ok h])

theorem listdir_reaches (fd : ℕ) : (listdir fd : Os ε (List Str)).Within World.Reaches :=
  (syscall_reaches (fun _ _ _ h => by rw [World.getdents_ok h]; exact ⟨rfl,rfl⟩)
    (World.owned_of_root fun _ _ _ h => by rw [World.getdents_ok h])).bind fun _ => .pure _

/-- A call that can only fail. -/
theorem inert_reaches (call : Call) :
    (syscall call fun w => .ok ((),w) : Os ε Unit).Within World.Reaches :=
  syscall_reaches (fun _ _ _ h => by cases h; exact ⟨rfl,rfl⟩)
    (World.owned_of_root fun _ _ _ h => by cases h; rfl)

theorem close_reaches (fd : ℕ) : (close fd : Os ε Unit).Within World.Reaches := by
  intro w
  refine World.reaches_rest (close_later fd w) ?_
  unfold close
  split <;> rfl

theorem drop_reaches (owned : Option ℕ) : (drop owned : Os ε Unit).Within World.Reaches := by
  cases owned with
  | none => exact .pure _
  | some fd => exact fun w => World.reaches_rest ⟨rfl,Nat.le_succ _⟩ rfl

theorem checkpoint_reaches : (checkpoint : Os ε Unit).Within World.Reaches := World.reaches_tick

theorem tokenUrlsafe_reaches : (tokenUrlsafe : Os ε Str).Within World.Reaches := World.reaches_tick

theorem awaitThread_reaches {x : Os ε α} (hx : x.Within World.Reaches) :
    (awaitThread x).Within World.Reaches :=
  checkpoint_reaches.bind fun _ => hx.bind fun _ => checkpoint_reaches.bind fun _ => .pure _

end Os
end Python

namespace Posix
namespace World
variable {w v u : World} {made : Set ℕ} {fd : ℕ} {loc : Loc}

/-- If a descriptor stands for a regular file, the file is in `made`. -/
def Owns (w : World) (made : Set ℕ) (fd : ℕ) : Prop :=
  ∀ loc a content, w.locOf fd = .ok loc → w.root.get loc = some (.file a content) → a.ino ∈ made

/-- Whoever owns the file of a descriptor writes to no other files, and still owns it. -/
def Fills (made : Set ℕ) (fd : ℕ) (w v : World) : Prop :=
  w.Owns made fd → Calls made w made v ∧ v.Owns made fd

instance : Std.Refl (Fills made fd) := ⟨fun _ h => ⟨.refl,h⟩⟩

instance : IsTrans World (Fills made fd) := ⟨fun _ _ _ h h' howns => by
  obtain ⟨hcalls,howns⟩ := h howns
  obtain ⟨hcalls',howns⟩ := h' howns
  exact ⟨hcalls.trans hcalls',howns⟩⟩

theorem fills_tick (w : World) : Fills made fd w w.tick := fun howns =>
  ⟨.rest (later_tick w) rfl,howns⟩

theorem fills_close (fd' : ℕ) (w : World) : Fills made fd w (w.close fd').tick := by
  intro howns
  refine ⟨.rest ⟨rfl,Nat.le_succ _⟩ rfl,fun k a content hk hget => ?_⟩
  by_cases hfd : fd = fd'
  · have hnone : (w.close fd').fds.lookup fd = none := by
      rw [List.lookup_eq_none_iff]
      intro e he
      have hne : e.1 ≠ fd' := by simpa using (List.mem_filter.mp he).2
      simpa [hfd] using hne.symm
    have hclosed : (w.close fd').locOf fd = .ok k := hk
    unfold locOf at hclosed
    rw [hnone] at hclosed
    cases hclosed
  · exact howns k a content ((locOf_close w hfd).symm.trans hk) hget

/-- The new name leads to what was linked there, if there is a directory to hold it. -/
theorem get_link {n m : Node} (h : (w.link loc n).root.get loc = some m) :
    m = n ∨ w.root.get loc = some m := by
  rcases List.eq_nil_or_concat' loc with rfl | ⟨k,c,rfl⟩
  · exact .inr h
  rw [link,List.getLast?_concat,List.dropLast_concat] at h
  change (w.root.modify _ k).get (k ++ [c]) = some m at h
  rw [Node.get_modify_append] at h
  obtain ⟨d,hd,hget⟩ := Option.bind_eq_some_iff.mp h
  cases d with
  | dir a es =>
    rw [Node.get_cons,Node.child,Node.entries,lookup_setEntry,if_pos rfl] at hget
    cases hget
    exact .inl rfl
  | file | symlink | special => cases hget

end World
end Posix

namespace CodeExecutorApi
open Python Posix Machine

section Writing
variable {w v : World} {made : Set ℕ} {fd : ℕ}

theorem write_fills (bytes : Bytes) :
    (Os.write fd bytes : Api Unit).Within (World.Fills made fd) := by
  intro w howns
  refine Os.ends_syscall (Q := fun _ v => Calls made w made v ∧ v.Owns made fd) ?_ ?_ ?_
  · exact fun _ _ => World.fills_tick w howns
  · exact fun _ _ => World.fills_tick w howns
  intro r v h
  have hlater : w.Later v.tick := by
    obtain ⟨henv,hcalls⟩ := World.counted_append fd bytes w r v h
    exact ⟨henv,hcalls ▸ Nat.le_succ _⟩
  unfold World.append at h
  cases hloc : w.locOf fd with
  | error e =>
    rw [hloc] at h
    cases h
  | ok loc =>
    rw [hloc] at h
    dsimp only [bind,Except.bind] at h
    split at h
    · rename_i a content hget
      cases h
      have hmade : a.ino ∈ made := howns loc a content hloc hget
      have halters : Alters made w made (w.update loc (World.appended bytes _)).root :=
        .append hget hmade
      refine ⟨.step .refl hlater (.inl rfl) halters,?_⟩
      intro k b content' hk hget'
      cases hloc.symm.trans hk
      change (w.root.modify _ loc).get loc = _ at hget'
      rw [Node.get_modify_self,hget] at hget'
      cases hget'
      exact howns loc a content hloc hget
    · cases h

theorem awaitThread_fills {α : Type} {x : Api α} (hx : x.Within (World.Fills made fd)) :
    (Os.awaitThread x).Within (World.Fills made fd) :=
  Program.Within.bind (fun w => World.fills_tick w) fun _ => hx.bind fun _ =>
    Program.Within.bind (fun w => World.fills_tick w) fun _ => .pure _

theorem fdopen_fills : (Os.fdopen fd : Api Unit).Within (World.Fills made fd) := by
  intro w howns
  refine Os.ends_syscall (Q := fun _ v => Calls made w made v ∧ v.Owns made fd) ?_ ?_ ?_
  · exact fun _ _ => World.fills_tick w howns
  · exact fun _ _ => World.fills_tick w howns
  · rintro _ _ ⟨⟩
    exact World.fills_tick w howns

theorem awaitFdopen_fills : (Os.awaitFdopen fd : Api Unit).Within (World.Fills made fd) := by
  refine Program.Within.bind (fun w => World.fills_tick w) fun _ => fdopen_fills.bind fun _ =>
    Program.Within.onError (fun w => World.fills_tick w) fun w => ?_
  cases w.env.freed w.calls with
  | false => exact Std.Refl.refl w
  | true => exact World.fills_close fd w

theorem writeContent_fills (maxSize size : ℕ) (reads : List (Except (Exc AppError) Bytes)) :
    (writeContent fd maxSize size reads).Within (World.Fills made fd) := by
  induction reads generalizing size with
  | nil => exact .pure _
  | cons read reads ih =>
    refine Program.Within.bind (fun w => World.fills_tick w) fun _ => ?_
    split
    · exact .raise _
    · exact .pure _
    · split_ifs
      · exact .raise _
      · exact (awaitThread_fills (write_fills _)).bind fun _ => ih _

/-- The file that is opened for writing is a new one. -/
theorem ends_open_temp (name : Str) (parentFd : ℕ) (w : World) :
    (Os.open_ name tempFlags tempMode (some parentFd) : Api ℕ).Ends w fun r v =>
      w.Reaches v ∧ ∀ fd, r = .ok fd → ∃ made, Calls ∅ w made v ∧ v.Owns made fd := by
  refine Program.Ends.within (Q := fun r v => ∀ fd, r = .ok fd → ∃ made, Calls ∅ w made v ∧
    v.Owns made fd) ?_ (Os.open_reaches name tempFlags tempMode (some parentFd))
  refine Program.Ends.bind (R := fun _ v => w = v) ?_ ?_ fun e v _ fd h => by cases h
  · unfold Os.path
    split
    · rfl
    · split_ifs <;> rfl
  rintro path _ rfl
  refine Os.ends_syscall (fun _ _ fd h => by cases h) (fun _ _ fd h => by cases h) ?_
  rintro fd u h _ ⟨⟩
  obtain ⟨loc,hopen⟩ := World.resolving_ok h
  obtain ⟨henv,hcalls⟩ := World.counted_openLoc _ _ _ _ _ _ hopen
  have hlt : w.calls < u.tick.calls := hcalls ▸ Nat.lt_succ_self _
  have hlater : w.Later u.tick := ⟨henv,hlt.le⟩
  unfold World.openLoc at hopen
  split at hopen
  · rw [if_pos ⟨rfl,rfl⟩] at hopen
    cases hopen
  rename_i hnone
  rw [if_pos (show tempFlags.create = true from rfl)] at hopen
  cases hw : w.writable loc with
  | error e =>
    rw [hw] at hopen
    cases hopen
  | ok =>
    rw [hw] at hopen
    cases hopen
    refine ⟨_,.step .refl hlater (.inr hlt) (.create hnone),?_⟩
    intro k b content hk hget
    cases (World.locOf_alloc _ _).symm.trans hk
    rcases World.get_link hget with heq | hget
    · cases heq
      exact .inl rfl
    · rw [hnone] at hget
      cases hget

/-- What is written goes to a file that the process owns, and then its descriptor is closed. -/
theorem ends_fill {α : Type} {x : Api α} {c : Api Unit} (hcalls : Calls ∅ w made v)
    (howns : v.Owns made fd) (hx : x.Within (World.Fills made fd)) (hc : c.Within World.Reaches) :
    (x.ensure c).Ends v fun _ u => w.Reaches u := by
  have hfilled : x.Ends v fun _ u => Calls made v made u ∧ u.Owns made fd := hx v howns
  refine Program.ends_ensure.mpr (hfilled.mono fun r u hu => ?_)
  have hu' : w.Reaches (c u).2 := .after (hcalls.trans hu.1) (hc u)
  refine Program.Ends.mono (Q := fun _ t => w.Reaches t) hu' fun r' t ht => ?_
  cases r' <;> exact ht

theorem writeFileToTemp_reaches (parentFd : ℕ) (content : Content) (maxSize : ℕ) :
    (writeFileToTemp parentFd content maxSize).Within World.Reaches := by
  have hunlink (name : Str) :
      (suppressFileNotFound (Os.unlink name parentFd)).Within World.Reaches := by
    refine (Os.unlink_reaches name parentFd).handle fun e => ?_
    split
    · exact .pure _
    · exact .raise _
  refine Os.tokenUrlsafe_reaches.bind fun token w => ?_
  change Program.Ends _ w fun _ v => w.Reaches v
  refine (ends_open_temp _ parentFd w).bind ?_ fun e v hv => hv.1
  rintro fd v ⟨_,hfd⟩
  obtain ⟨made,hcalls,howns⟩ := hfd fd rfl
  refine Program.Ends.bind (R := fun r u => w.Reaches u ∧
    (r = .ok () → Calls ∅ w made u ∧ u.Owns made fd)) ?_ ?_ fun e u hu => hu.1
  · have hopen : (Os.awaitFdopen fd : Api Unit).Ends v fun _ u =>
        Calls ∅ w made u ∧ u.Owns made fd := by
      obtain ⟨hthread,howns⟩ := awaitFdopen_fills v howns
      exact ⟨hcalls.trans hthread,howns⟩
    refine hopen.handle (fun _ u hu => ⟨⟨made,hu.1⟩,fun _ => hu⟩) fun e u hu => ?_
    have hclean : (Os.close fd >>= fun _ => suppressFileNotFound
        (Os.unlink (tempPrefix ++ token) parentFd) : Api Unit).Ends u fun _ t => w.Reaches t :=
      World.Reaches.after hu.1 (((Os.close_reaches fd).bind fun _ => hunlink _) u)
    exact hclean.bind (fun _ t ht => ⟨ht,fun h => by cases h⟩) fun e t ht =>
      ⟨ht,fun h => by cases h⟩
  · rintro _ u ⟨-,hu⟩
    obtain ⟨hcalls,howns⟩ := hu rfl
    have hfill := ends_fill hcalls howns (writeContent_fills maxSize 0 (prepareReader content))
      (Os.awaitThread_reaches (Os.close_reaches fd))
    refine Program.Ends.bind (R := fun _ t => w.Reaches t) ?_ (fun _ t ht => ht) fun e t ht => ht
    refine hfill.handle (fun _ t ht => ht) fun e t ht => ?_
    exact IsTrans.trans w t _ ht (((hunlink _).bind fun _ => .raise e) t)

end Writing

namespace Session
variable {workDirectory : Str}

theorem mapErrno_reaches {α : Type} {errnos : List Errno} {cls : OSErrorClass} {x : Api α}
    (hx : x.Within World.Reaches) : (mapErrno errnos cls x).Within World.Reaches := by
  refine hx.handle fun e => ?_
  split
  · split_ifs <;> exact .raise _
  · exact .raise _

theorem openPart_reaches (createDir : Bool) (parentFd : ℕ) (pathPart : Str) :
    (openPart createDir parentFd pathPart).Within World.Reaches := by
  have hnext : (do
      let nextFd ← mapErrno [.eloop,.enotdir] .fileNotFound
        (Os.open_ pathPart dirFlags dirMode (some parentFd))
      Os.close parentFd
      return nextFd : Api ℕ).Within World.Reaches :=
    (mapErrno_reaches (Os.open_reaches _ _ _ _)).bind fun _ => (Os.close_reaches _).bind fun _ =>
      .pure _
  cases createDir with
  | false => exact hnext
  | true =>
    refine Program.Within.bind ((Os.mkdir_reaches _ _ _).handle fun e => ?_) fun _ => hnext
    split
    · exact .pure _
    · exact .raise _

theorem openParent_reaches {α : Type} [Owning α] {createDir : Bool} {body : ℕ → Str → Api α}
    (hbody : ∀ fd filename, (body fd filename).Within World.Reaches) (p : Str) :
    (openParent workDirectory p createDir body).Within World.Reaches := by
  have hparts (body : ℕ → Api α) (hbody : ∀ fd, (body fd).Within World.Reaches) (fd : ℕ)
      (parts : List Str) : (openParts createDir body fd parts).Within World.Reaches := by
    induction parts generalizing fd with
    | nil => exact (hbody fd).ensureOrDrop (Os.close_reaches fd) fun a => Os.drop_reaches _
    | cons part parts ih =>
      exact ((openPart_reaches createDir fd part).onError (Os.close_reaches fd)).bind fun _ => ih _
  exact (Os.open_reaches _ _ _ _).bind fun fd => hparts _ (fun fd => hbody fd _) fd _

theorem normalize_reaches (q : Str) : (normalize q).Within World.Reaches := by
  unfold normalize
  split
  · exact .pure _
  · exact .raise _

theorem ioBasePayload_reaches (filename : Str) :
    (ioBasePayload filename).Within World.Reaches := by
  intro w
  unfold ioBasePayload
  split_ifs
  · exact World.reaches_tick w
  · exact Os.inert_reaches _ w

theorem readFile_reaches (q : Str) (fieldName : Option Str) :
    (readFile workDirectory q fieldName).Within World.Reaches := by
  refine (normalize_reaches q).bind fun p => openParent_reaches (fun parentFd filename => ?_) p
  refine (mapErrno_reaches (Os.open_reaches _ _ _ _)).bind fun fd =>
    Program.Within.bind (Program.Within.onError ?_ (Os.close_reaches fd)) fun _ =>
      Program.Within.onError ?_ (Os.close_reaches fd)
  · refine (Os.fstat_reaches fd).bind fun st => ?_
    split_ifs
    · exact .raise _
    · exact .raise _
    · exact .pure _
  · refine (Os.inert_reaches _).bind fun _ => (ioBasePayload_reaches _).bind fun _ => ?_
    split
    · exact .pure _
    · exact .raise _

theorem statEntries_reaches (fd : ℕ) (names : List Str) :
    (statEntries fd names).Within World.Reaches := by
  induction names with
  | nil => exact .pure _
  | cons name names ih =>
    have hstat := Os.stat_reaches (ε := AppError) name fd
    refine Program.Within.bind ((hstat.bind fun _ => .pure _).handle fun e => ?_)
      fun _ => ih.bind fun _ => .pure _
    split
    · exact .pure _
    · exact .raise _

theorem listDirectory_reaches (q : Str) : (listDirectory workDirectory q).Within World.Reaches := by
  have hlist (p : Str) :
      (openDirectory workDirectory p >>= listFrom p).Within World.Reaches := by
    unfold openDirectory
    refine Program.Within.bind ?_ fun fd =>
      Program.Within.bind (Program.Within.ensure ?_ (Os.close_reaches fd)) fun _ => .pure _
    · split_ifs
      · exact Os.open_reaches _ _ _ _
      · exact openParent_reaches (fun _ _ => mapErrno_reaches (Os.open_reaches _ _ _ _)) p
    · exact (Os.listdir_reaches fd).bind fun names => statEntries_reaches fd names
  rw [listDirectory_eq]
  refine Program.Within.bind ?_ hlist
  split_ifs
  · exact .pure _
  · exact normalize_reaches q

theorem stageFile_reaches (maxFileSize : ℕ) (q : Str) (content : Content) :
    (stageFile workDirectory maxFileSize q content).Within World.Reaches := by
  refine (normalize_reaches q).bind fun p =>
    Program.Within.bind (Program.Within.handle ?_ fun e => ?_)
    fun _ => .pure _
  · exact openParent_reaches (fun fd _ => (writeFileToTemp_reaches fd content maxFileSize).bind
      fun _ => .pure _) p
  · split <;> exact .raise _

theorem commitStagedFile_reaches (p name : Str) :
    (commitStagedFile workDirectory p name).Within World.Reaches :=
  openParent_reaches (fun _ _ => Os.replace_reaches _ _ _ _) p

/-- Discarding a staged file, whatever comes of it. -/
theorem discard_reaches (p name : Str) :
    (suppressOSError (discardStagedFile workDirectory p name)).Within World.Reaches := by
  refine Program.Within.handle (openParent_reaches (fun fd _ => ?_) p) fun e => ?_
  · refine (Os.unlink_reaches name fd).handle fun e => ?_
    split
    · exact .pure _
    · exact .raise _
  · split
    · exact .pure _
    · exact .raise _

theorem writeFile_reaches (maxFileSize : ℕ) (q : Str) (content : Content) :
    (writeFile workDirectory maxFileSize q content).Within World.Reaches := by
  refine (stageFile_reaches maxFileSize q content).bind fun st =>
    (commitStagedFile_reaches st.1 st.2).handle fun e =>
      (discard_reaches st.1 st.2).bind fun _ => ?_
  split <;> exact .raise _

theorem deleteFile_reaches (q : Str) : (deleteFile workDirectory q).Within World.Reaches := by
  refine (normalize_reaches q).bind fun p => openParent_reaches (fun fd filename => ?_) p
  refine (Os.stat_reaches filename fd).bind fun st => ?_
  split_ifs
  · exact Program.Within.bind (.raise _) fun _ => Os.unlink_reaches _ _
  · exact Os.unlink_reaches _ _

end Session

section Removal
variable {w v : World} {cwd : Loc} {path : Bytes}

theorem chmodFrom_reaches {mode : Mode} (h : w.chmodFrom cwd path mode = .ok v) : w.Reaches v := by
  unfold World.chmodFrom at h
  cases hloc : namei w.root true w.env.maxLinks cwd path with
  | error e =>
    rw [hloc] at h
    cases h
  | ok loc =>
    rw [hloc] at h
    dsimp only [bind,Except.bind] at h
    split at h
    · cases h
      exact ⟨∅,.step .refl ⟨rfl,le_rfl⟩ (.inl rfl) .chmod⟩
    · cases h

theorem later_unlink (w : World) (loc : Loc) : w.Later (w.unlink loc) := by
  obtain ⟨henv,hcalls⟩ := World.counted_unlink w loc
  exact ⟨henv,hcalls.ge⟩

theorem unlinkFrom_reaches (h : w.unlinkFrom cwd path = .ok v) : w.Reaches v := by
  unfold World.unlinkFrom at h
  cases hloc : namei w.root false w.env.maxLinks cwd path with
  | error e =>
    rw [hloc] at h
    cases h
  | ok loc =>
    rw [hloc] at h
    dsimp only [bind,Except.bind] at h
    split at h
    · cases h
    · rename_i r hr
      cases h
      have halters := World.alters_unlinkLoc loc w r.1 r.2 hr
      obtain ⟨henv,hcalls⟩ := World.counted_unlinkLoc loc w r.1 r.2 hr
      exact ⟨∅,.step .refl ⟨henv,hcalls.ge⟩ (.inl rfl) halters⟩

theorem rmdirFrom_reaches (h : w.rmdirFrom cwd path = .ok v) : w.Reaches v := by
  unfold World.rmdirFrom at h
  cases hloc : namei w.root false w.env.maxLinks cwd path with
  | error e =>
    rw [hloc] at h
    cases h
  | ok loc =>
    rw [hloc] at h
    dsimp only [bind,Except.bind] at h
    split at h
    · rename_i a es hget
      split at h
      · cases h
      · split_ifs at h with hempty
        cases h
        rw [not_not] at hempty
        exact ⟨∅,.step .refl (later_unlink w loc) (.inl rfl) (.rmdir (hempty ▸ hget))⟩
    · cases h
    · cases h

theorem foldl_reaches {α : Type} {f : World → α → World} (hf : ∀ (w : World) a, w.Reaches (f w a))
    (as : List α) (w : World) : w.Reaches (as.foldl f w) := by
  induction as generalizing w with
  | nil => exact .refl w
  | cons a as ih => exact IsTrans.trans w _ _ (hf w a) (ih (f w a))

theorem foldlM_reaches {α : Type} {f : World → α → Except Errno World}
    (hf : ∀ (w : World) a v, f w a = .ok v → w.Reaches v) {as : List α} :
    as.foldlM f w = .ok v → w.Reaches v := by
  induction as generalizing w with
  | nil =>
    rintro ⟨⟩
    exact .refl _
  | cons a as ih =>
    intro h
    rw [List.foldlM_cons] at h
    cases hu : f w a with
    | error e =>
      rw [hu] at h
      cases h
    | ok u =>
      rw [hu] at h
      exact IsTrans.trans w u v (hf w a u hu) (ih h)

theorem unlockEntry_reaches (directory : Loc) (w : World) (name : Name) :
    w.Reaches (unlockEntry directory w name) := by
  unfold unlockEntry
  split
  · split_ifs
    · split
      · rename_i v hv
        exact chmodFrom_reaches hv
      · exact .refl w
    · exact .refl w
  · exact .refl w

theorem walkInto_reaches {walk : Loc → World → World}
    (hwalk : ∀ loc (w : World), w.Reaches (walk loc w))
    (directory : Loc) (w : World) (name : Name) : w.Reaches (walkInto walk directory w name) := by
  unfold walkInto
  split
  · exact hwalk _ _
  · exact .refl w

theorem fwalkUnlock_reaches (n : ℕ) (directory : Loc) (w : World) :
    w.Reaches (fwalkUnlock n directory w) := by
  induction n generalizing directory w with
  | zero => exact .refl w
  | succ n ih =>
    exact IsTrans.trans w _ _ (foldl_reaches (unlockEntry_reaches directory) _ w)
      (foldl_reaches (walkInto_reaches ih directory) _ _)

theorem removeEntries_reaches {n : ℕ} {directory : Loc} (h : removeEntries n directory w = .ok v) :
    w.Reaches v := by
  induction n generalizing directory w v with
  | zero => cases h
  | succ n ih =>
    unfold removeEntries at h
    split at h
    · refine foldlM_reaches (fun w entry v hentry => ?_) h
      unfold removeEntry at hentry
      split_ifs at hentry
      · cases hchild : w.opendirFrom directory entry.1.bytes with
        | error e =>
          rw [hchild] at hentry
          cases hentry
        | ok child =>
          rw [hchild] at hentry
          dsimp only [bind,Except.bind] at hentry
          split at hentry
          · cases hentry
          · rename_i u hu
            exact IsTrans.trans w u v (ih hu) (rmdirFrom_reaches hentry)
      · exact unlinkFrom_reaches hentry
    · cases h

/-- Opening up a tree and removing what is in it writes to no file. -/
theorem emptied_reaches {n : ℕ} {directory : Loc}
    (h : removeEntries n directory (fwalkUnlock n directory w) = .ok v) : w.Reaches v :=
  IsTrans.trans w _ v (fwalkUnlock_reaches n directory w) (removeEntries_reaches h)

end Removal
end CodeExecutorApi
