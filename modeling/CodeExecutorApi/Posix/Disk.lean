import Mathlib.Logic.Function.Basic
import CodeExecutorApi.Machine.Runs
import CodeExecutorApi.Posix.Tree

/-! A file system as a table of inodes, which any number of names may lead to, and what processes
can do to it while its clock goes on. Whatever they do to an inode, they leave their time on it. -/
namespace Posix
open Machine

/-- What an inode stores beside its times. A directory stores the inodes of its entries. -/
inductive InodeData
  | file (content : Bytes)
  | dir (entries : List (Name × ℕ))
  | symlink (target : Bytes)
  | special (kind : Special)

/-- The size is the one reported for a directory or a special file. -/
structure Inode where
  mode : Mode
  size : ℕ
  mtimeNs : ℤ
  ctimeNs : ℤ
  data : InodeData

def Inode.attr (ino : ℕ) (x : Inode) : Attr := ⟨ino,x.mode,x.size,x.mtimeNs,x.ctimeNs⟩

structure Disk where
  inodes : ℕ → Option Inode
  clock : ℤ

/-- What a process can do. Linking, unlinking and renaming change the entries of directories, and a
file that is created has no name yet. A number that is free can be given out again. -/
inductive DiskCall
  | pass (ns : ℕ)
  | write (ino : ℕ) (content : Bytes)
  | utimens (ino : ℕ) (mtimeNs : ℤ)
  | chmod (ino : ℕ) (mode : Mode)
  | relink (ino : ℕ) (entries : List (Name × ℕ)) (size : ℕ)
  | alloc (ino : ℕ) (mode : Mode) (size : ℕ) (data : InodeData)
  | free (ino : ℕ)

namespace Disk
variable (d : Disk)

def set (ino : ℕ) (x : Option Inode) : Disk := {d with inodes := Function.update d.inodes ino x}

def step : DiskCall → Option Disk
  | .pass ns => some {d with clock := d.clock+ns}
  | .write ino content =>
    match d.inodes ino with
    | some x =>
      match x.data with
      | .file _ =>
        some (d.set ino (some {x with mtimeNs := d.clock, ctimeNs := d.clock, data := .file content}))
      | .dir _ | .symlink _ | .special _ => none
    | none => none
  -- the time of the last change is the one that nobody can choose
  | .utimens ino mtimeNs =>
    (d.inodes ino).map fun x => d.set ino (some {x with mtimeNs := mtimeNs, ctimeNs := d.clock})
  | .chmod ino mode =>
    (d.inodes ino).map fun x => d.set ino (some {x with mode := mode, ctimeNs := d.clock})
  | .relink ino entries size =>
    match d.inodes ino with
    | some x =>
      match x.data with
      | .dir _ => some (d.set ino (some {x with
          size := size, mtimeNs := d.clock, ctimeNs := d.clock, data := .dir entries}))
      | .file _ | .symlink _ | .special _ => none
    | none => none
  | .alloc ino mode size data =>
    match d.inodes ino with
    | some _ => none
    | none => some (d.set ino (some ⟨mode,size,d.clock,d.clock,data⟩))
  | .free ino => (d.inodes ino).map fun _ => d.set ino none

/-- The inode that a place below the directory `ino` leads to. -/
def resolve (ino : ℕ) : Loc → Option (ℕ × Inode)
  | [] => (d.inodes ino).map fun x => (ino,x)
  | c :: loc =>
    match d.inodes ino with
    | some x =>
      match x.data with
      | .dir entries => (entries.lookup c).bind fun i => resolve i loc
      | .file _ | .symlink _ | .special _ => none
    | none => none

end Disk

/-- An entry of a tree is what the inode stores. -/
def Inode.Is (e : ℕ × Inode) : Node → Prop
  | .file a content => a = e.2.attr e.1 ∧ e.2.data = .file content
  | .dir a es => a = e.2.attr e.1 ∧ ∃ entries, e.2.data = .dir entries ∧
      entries.map Prod.fst = es.map Prod.fst
  | .symlink a target => a = e.2.attr e.1 ∧ e.2.data = .symlink target
  | .special a kind => a = e.2.attr e.1 ∧ e.2.data = .special kind

/-- The tree that stands below the directory `ino`. -/
def Disk.Shows (d : Disk) (ino : ℕ) (t : Node) : Prop :=
  ∀ loc, Option.Rel Inode.Is (d.resolve ino loc) (t.get loc)

namespace Disk
variable {d d' : Disk} {c : DiskCall} {h : List (Disk × DiskCall)} {ino : ℕ} {x y : Inode}

theorem inodes_set (ino i : ℕ) (x : Option Inode) :
    (d.set ino x).inodes i = if i = ino then x else d.inodes i := Function.update_apply ..

/-- What a call leaves under a number was there before or bears the time of the call. -/
def Stamped (since : ℤ) (d d' : Disk) : Prop :=
  ∀ ino x, d'.inodes ino = some x → d.inodes ino = some x ∨ since ≤ x.ctimeNs

theorem stamped_set {since : ℤ} {x : Option Inode} (hx : ∀ y, x = some y → since ≤ y.ctimeNs) :
    Stamped since d (d.set ino x) := by
  intro i y hy
  rw [inodes_set] at hy
  split_ifs at hy
  · exact .inr (hx y hy)
  · exact .inl hy

theorem stamped_map {since : ℤ} {f : Inode → Option Inode}
    (hf : ∀ x y, f x = some y → since ≤ y.ctimeNs)
    (hstep : (d.inodes ino).map (fun x => d.set ino (f x)) = some d') :
    d'.clock = d.clock ∧ Stamped since d d' := by
  obtain ⟨x,-,rfl⟩ := Option.map_eq_some_iff.mp hstep
  exact ⟨rfl,stamped_set fun y hy => hf x y hy⟩

theorem step_stamped (hstep : d.step c = some d') : d.clock ≤ d'.clock ∧ Stamped d.clock d d' := by
  cases c with
  | pass ns =>
    cases hstep
    exact ⟨Int.le_add_of_nonneg_right (Int.natCast_nonneg ns),fun _ _ h => .inl h⟩
  | write ino content =>
    simp only [step] at hstep
    split at hstep
    · split at hstep
      · cases hstep
        exact ⟨Int.le_refl _,stamped_set fun y hy => by cases hy; exact Int.le_refl _⟩
      all_goals cases hstep
    · cases hstep
  | utimens ino mtimeNs =>
    obtain ⟨hclock,h⟩ := stamped_map (fun x y hy => by cases hy; exact Int.le_refl _) hstep
    exact ⟨Int.le_of_eq hclock.symm,h⟩
  | chmod ino mode =>
    obtain ⟨hclock,h⟩ := stamped_map (fun x y hy => by cases hy; exact Int.le_refl _) hstep
    exact ⟨Int.le_of_eq hclock.symm,h⟩
  | relink ino entries size =>
    simp only [step] at hstep
    split at hstep
    · split at hstep
      · cases hstep
        exact ⟨Int.le_refl _,stamped_set fun y hy => by cases hy; exact Int.le_refl _⟩
      all_goals cases hstep
    · cases hstep
  | alloc ino mode size data =>
    simp only [step] at hstep
    split at hstep
    · cases hstep
    · cases hstep
      exact ⟨Int.le_refl _,stamped_set fun y hy => by cases hy; exact Int.le_refl _⟩
  | free ino =>
    obtain ⟨hclock,h⟩ := stamped_map (fun x y hy => by cases hy) hstep
    exact ⟨Int.le_of_eq hclock.symm,h⟩

theorem run_stamped (run : Run step d h d') : d.clock ≤ d'.clock ∧ Stamped d.clock d d' := by
  induction run with
  | start => exact ⟨Int.le_refl _,fun _ _ h => .inl h⟩
  | next run hstep ih =>
    obtain ⟨hle,hstamped⟩ := ih
    obtain ⟨hle',hstamped'⟩ := step_stamped hstep
    refine ⟨Int.le_trans hle hle',fun ino x hx => ?_⟩
    rcases hstamped' ino x hx with hx | hx
    · exact hstamped ino x hx
    · exact .inr (Int.le_trans hle hx)

/-- An inode that bears an older time than the run is as it was before. -/
theorem same_of_older (run : Run step d h d') (hy : d'.inodes ino = some y)
    (hold : y.ctimeNs < d.clock) : d.inodes ino = some y := by
  rcases (run_stamped run).2 ino y hy with hy | hy
  · exact hy
  · omega

theorem inodes_resolve {loc : Loc} {i : ℕ} {e : ℕ × Inode} (h : d.resolve i loc = some e) :
    d.inodes e.1 = some e.2 := by
  induction loc generalizing i with
  | nil =>
    obtain ⟨x,hx,rfl⟩ := Option.map_eq_some_iff.mp h
    exact hx
  | cons c loc ih =>
    simp only [resolve] at h
    split at h
    · split at h
      · obtain ⟨j,-,h⟩ := Option.bind_eq_some_iff.mp h
        exact ih h
      all_goals cases h
    · cases h

theorem resolve_clock (ns : ℤ) (ino : ℕ) (loc : Loc) :
    ({d with clock := ns} : Disk).resolve ino loc = d.resolve ino loc := by
  induction loc generalizing ino with
  | nil => rfl
  | cons c loc ih => simp only [resolve,ih]

theorem Shows.wait {t : Node} {root : ℕ} (hshows : d.Shows root t) (ns : ℤ) :
    ({d with clock := ns} : Disk).Shows root t := by
  intro loc
  rw [resolve_clock]
  exact hshows loc

/-- An entry of a tree that is shown is an inode. -/
theorem Shows.inode {t n : Node} {loc : Loc} {root : ℕ} (hshows : d.Shows root t)
    (hget : t.get loc = some n) : ∃ e, d.inodes e.1 = some e.2 ∧ Inode.Is e n := by
  have hrel := hshows loc
  rw [hget] at hrel
  cases hresolve : d.resolve root loc with
  | none =>
    rw [hresolve] at hrel
    cases hrel
  | some e =>
    rw [hresolve] at hrel
    cases hrel with
    | some his => exact ⟨e,inodes_resolve hresolve,his⟩

theorem Shows.file {t : Node} {loc : Loc} {root : ℕ} {a : Attr} {content : Bytes}
    (hshows : d.Shows root t) (hget : t.get loc = some (.file a content)) :
    ∃ x, d.inodes a.ino = some x ∧ a = x.attr a.ino ∧ x.data = .file content := by
  obtain ⟨⟨ino,x⟩,hx,ha,hdata⟩ := hshows.inode hget
  have hino : a.ino = ino := by rw [ha]; rfl
  exact ⟨x,by rwa [hino],by rwa [hino],hdata⟩

/-- Files before and after a run that bear the same number and the same time, older than the run,
are one file that the run has not changed. -/
theorem same_file {t t' : Node} {loc loc' : Loc} {root root' : ℕ} {a a' : Attr}
    {content content' : Bytes} (run : Run step d h d') (hshows : d.Shows root t)
    (hshows' : d'.Shows root' t') (hget : t.get loc = some (.file a content))
    (hget' : t'.get loc' = some (.file a' content')) (hino : a'.ino = a.ino)
    (hctime : a'.ctimeNs = a.ctimeNs) (hold : a.ctimeNs < d.clock) :
    a' = a ∧ content' = content := by
  obtain ⟨x,hx,ha,hdata⟩ := hshows.file hget
  obtain ⟨x',hx',ha',hdata'⟩ := hshows'.file hget'
  have htime : x'.ctimeNs = a'.ctimeNs := by rw [ha']; rfl
  have hsame := same_of_older run hx' (by omega)
  rw [hino,hx] at hsame
  cases hsame
  rw [hdata] at hdata'
  cases hdata'
  exact ⟨by rw [ha',ha,hino],rfl⟩

end Disk

end Posix
