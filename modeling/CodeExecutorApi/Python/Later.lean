import CodeExecutorApi.Python.Calls

/-! The calls of a program are counted, and the environment answers each number for good. Once it
lets no more clean-up fail, that stays so. -/
namespace Posix
namespace World

/-- Only more calls were made. -/
structure Later (w v : World) : Prop where
  env : v.env = w.env
  calls : w.calls ≤ v.calls

instance : Std.Refl Later := ⟨fun _ => ⟨rfl,le_rfl⟩⟩

theorem Later.trans {w v u : World} (h : w.Later v) (h' : v.Later u) : w.Later u :=
  ⟨h'.env.trans h.env,h.calls.trans h'.calls⟩

instance : IsTrans World Later := ⟨fun _ _ _ h h' => h.trans h'⟩

theorem later_tick (w : World) : w.Later w.tick := ⟨rfl,Nat.le_succ _⟩

/-- What follows makes only more calls. -/
theorem later_bind {ε α β : Type} {x : Machine.Program World ε β}
    {f : β → Machine.Program World ε α} (hf : ∀ b, (f b).Within Later) (w : World) :
    (x w).2.Later ((x >>= f) w).2 := by
  change (x w).2.Later ((x.bind f) w).2
  unfold Machine.Program.bind
  rcases x w with ⟨e | b,v⟩
  · exact refl v
  · exact hf b v

/-- From here on nothing keeps a directory from being opened, a descriptor from being closed or an
entry from being removed. -/
def Calm (w : World) : Prop :=
  ∀ call ∈ [Call.open,.close,.unlink], ∀ n ≥ w.calls, w.env.fault call n = none

theorem Calm.later {w v : World} (h : w.Calm) (hv : w.Later v) : v.Calm := by
  intro call hcall n hn
  rw [hv.env]
  exact h call hcall n (hv.calls.trans hn)

theorem calm_of_reliable {w : World} (h : w.env.Reliable) : w.Calm := by
  intro call hcall n _
  refine h call n fun hmem => ?_
  cases call <;> simp at hcall hmem

/-- What a call does to a tree is not a further call. -/
def Counted {α : Type} (f : World → Except Errno (α × World)) : Prop :=
  ∀ w a v, f w = .ok (a,v) → v.env = w.env ∧ v.calls = w.calls

/-- A call on a path ends as it does at the place the path leads to. -/
theorem resolving_ok {α : Type} {follow : Bool} {dirFd : Option ℕ} {path : Bytes}
    {f : Loc → World → Except Errno (α × World)} {w v : World} {a : α}
    (h : resolving follow dirFd path f w = .ok (a,v)) : ∃ loc, f loc w = .ok (a,v) := by
  unfold resolving at h
  cases hbase : w.base dirFd with
  | error e =>
    rw [hbase] at h
    cases h
  | ok cwd =>
    rw [hbase] at h
    change (namei w.root follow w.env.maxLinks cwd path >>= fun loc => f loc w) = .ok (a,v) at h
    cases hloc : namei w.root follow w.env.maxLinks cwd path with
    | error e =>
      rw [hloc] at h
      cases h
    | ok loc =>
      rw [hloc] at h
      exact ⟨loc,h⟩

/-- What `open` gives is a new descriptor, of an entry that was there or that it made. -/
theorem openLoc_ok {flags : Flags} {mode : Mode} {loc : Loc} {w v : World} {fd : ℕ}
    (h : openLoc flags mode loc w = .ok (fd,v)) :
    (fd,v) = w.alloc loc ∨ (fd,v) = (w.link loc (.file (w.newAttr mode) [])).alloc loc := by
  unfold openLoc at h
  split at h
  · split_ifs at h
    rename_i n _ _
    cases ho : openNode n flags with
    | error e =>
      rw [ho] at h
      cases h
    | ok u =>
      rw [ho] at h
      cases h
      exact .inl rfl
  · split_ifs at h
    cases hw : w.writable loc with
    | error e =>
      rw [hw] at h
      cases h
    | ok u =>
      rw [hw] at h
      cases h
      exact .inr rfl

theorem unlinkLoc_ok {loc : Loc} {w v : World} {r : Unit} (h : unlinkLoc loc w = .ok (r,v)) :
    v = w.unlink loc := by
  unfold unlinkLoc at h
  split at h
  · cases h
  · rename_i n _
    cases hw : w.writable loc with
    | error e =>
      rw [hw] at h
      cases h
    | ok u =>
      rw [hw] at h
      change (if n.isDir = true then _ else _) = _ at h
      split_ifs at h
      cases h
      rfl

theorem counted_resolving {α : Type} {follow : Bool} {dirFd : Option ℕ} {path : Bytes}
    {f : Loc → World → Except Errno (α × World)} (hf : ∀ loc, Counted (f loc)) :
    Counted (resolving follow dirFd path f) := by
  intro w a v h
  obtain ⟨loc,hloc⟩ := resolving_ok h
  exact hf loc w a v hloc

theorem counted_link (w : World) (loc : Loc) (n : Node) :
    (w.link loc n).env = w.env ∧ (w.link loc n).calls = w.calls := by
  unfold link
  split <;> exact ⟨rfl,rfl⟩

theorem counted_unlink (w : World) (loc : Loc) :
    (w.unlink loc).env = w.env ∧ (w.unlink loc).calls = w.calls := by
  unfold unlink
  split <;> exact ⟨rfl,rfl⟩

theorem counted_openLoc (flags : Flags) (mode : Mode) (loc : Loc) :
    Counted (openLoc flags mode loc) := by
  intro w fd v h
  cases openLoc_ok h with
  | inl he =>
    cases he
    exact ⟨rfl,rfl⟩
  | inr he =>
    cases he
    exact counted_link _ _ _

theorem counted_unlinkLoc (loc : Loc) : Counted (unlinkLoc loc) := by
  intro w r v h
  rw [unlinkLoc_ok h]
  exact counted_unlink _ _

theorem counted_mkdirLoc (mode : Mode) (loc : Loc) : Counted (mkdirLoc mode loc) := by
  intro w r v h
  unfold mkdirLoc at h
  split at h
  · cases h
  · cases hw : w.writable loc with
    | error e =>
      rw [hw] at h
      cases h
    | ok u =>
      rw [hw] at h
      cases h
      exact counted_link _ _ _

theorem counted_renameLoc (old new : Loc) : Counted (renameLoc old new) := by
  intro w r v h
  cases hold : w.root.get old with
  | none =>
    rw [renameLoc,hold] at h
    cases h
  | some n =>
    rcases renameLoc_ok h hold with ⟨_,rfl⟩ | ⟨_,_,rfl⟩
    · exact ⟨rfl,rfl⟩
    · obtain ⟨henv,hcalls⟩ := counted_link (w.unlink old) new n
      obtain ⟨henv',hcalls'⟩ := counted_unlink w old
      exact ⟨henv.trans henv',hcalls.trans hcalls'⟩

theorem counted_append (fd : ℕ) (bytes : Bytes) : Counted (append fd bytes) := by
  intro w r v h
  unfold append at h
  cases hloc : w.locOf fd with
  | error e =>
    rw [hloc] at h
    cases h
  | ok loc =>
    rw [hloc] at h
    dsimp only [bind,Except.bind] at h
    split at h
    · cases h
      exact ⟨rfl,rfl⟩
    · cases h

end World
end Posix

namespace Python
open Machine Posix

namespace Os
variable {ε α : Type}

theorem syscall_later {call : Call} {f : World → Except Errno (α × World)}
    (hf : World.Counted f) : (syscall call f : Os ε α).Within World.Later := by
  intro w
  unfold syscall
  cases w.env.fault call w.calls with
  | some e => exact World.later_tick w
  | none =>
    dsimp only
    rcases hfw : f w with e | ⟨a,v⟩
    · exact World.later_tick w
    · obtain ⟨henv,hcalls⟩ := hf w a v hfw
      exact ⟨henv,hcalls ▸ Nat.le_succ _⟩

theorem path_later (s : Str) : (path s : Os ε Bytes).Within World.Later := by
  unfold path
  split
  · exact .raise _
  · split_ifs
    · exact .raise _
    · exact .pure _

theorem open_later (s : Str) (flags : Flags) (mode : Mode) (dirFd : Option ℕ) :
    (open_ s flags mode dirFd : Os ε ℕ).Within World.Later :=
  (path_later s).bind fun _ => syscall_later (World.counted_resolving fun loc =>
    World.counted_openLoc flags mode loc)

theorem unlink_later (s : Str) (fd : ℕ) : (unlink s fd : Os ε Unit).Within World.Later :=
  (path_later s).bind fun _ => syscall_later (World.counted_resolving World.counted_unlinkLoc)

theorem close_later (fd : ℕ) : (close fd : Os ε Unit).Within World.Later := by
  intro w
  unfold close
  split <;> exact ⟨rfl,Nat.le_succ _⟩

theorem mkdir_later (s : Str) (mode : Mode) (fd : ℕ) :
    (mkdir s mode fd : Os ε Unit).Within World.Later :=
  (path_later s).bind fun _ =>
    syscall_later (World.counted_resolving (World.counted_mkdirLoc mode))

theorem replace_later (src dst : Str) (srcFd dstFd : ℕ) :
    (replace src dst srcFd dstFd : Os ε Unit).Within World.Later :=
  (path_later src).bind fun _ => (path_later dst).bind fun _ =>
    syscall_later (World.counted_resolving fun old =>
      World.counted_resolving (World.counted_renameLoc old))

theorem write_later (fd : ℕ) (bytes : Bytes) : (write fd bytes : Os ε Unit).Within World.Later :=
  syscall_later (World.counted_append fd bytes)

theorem fdopen_later (fd : ℕ) : (fdopen fd : Os ε Unit).Within World.Later :=
  syscall_later fun _ _ _ h => by cases h; exact ⟨rfl,rfl⟩

theorem checkpoint_later : (checkpoint : Os ε Unit).Within World.Later :=
  fun w => World.later_tick w

theorem awaitThread_later {x : Os ε α} (hx : x.Within World.Later) :
    (awaitThread x).Within World.Later :=
  checkpoint_later.bind fun _ => hx.bind fun _ => checkpoint_later.bind fun _ => .pure _

theorem drop_later (owned : Option ℕ) : (drop owned : Os ε Unit).Within World.Later := by
  cases owned with
  | none => exact .pure _
  | some fd => exact fun w => ⟨rfl,Nat.le_succ _⟩

theorem awaitFdopen_later (fd : ℕ) : (awaitFdopen fd : Os ε Unit).Within World.Later :=
  checkpoint_later.bind fun _ => (fdopen_later fd).bind fun _ =>
    checkpoint_later.onError fun w => drop_later _ w

end Os
end Python
