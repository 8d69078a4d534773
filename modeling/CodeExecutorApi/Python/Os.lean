import CodeExecutorApi.Machine.Program
import CodeExecutorApi.Posix.Kernel
import CodeExecutorApi.Python.Codec
import CodeExecutorApi.Python.PosixPath

/-! Python's `os` module over the kernel: encoded path arguments, and errors as exceptions. -/
namespace Python
open Machine Posix

/-- The subclass of `OSError` an exception belongs to. -/
inductive OSErrorClass
  | osError
  | fileNotFound
  | fileExists
  | notADirectory
  | isADirectory
  | permission
  deriving DecidableEq, Repr

/-- An `OSError` that Python code raises itself has no errno. The exceptions of the application
are a parameter. -/
inductive Exc (ε : Type)
  | os (cls : OSErrorClass) (errno : Option Errno)
  | valueError
  | unicodeEncodeError
  | cancelled
  | app (e : ε)
  deriving DecidableEq, Repr

def errorClass : Errno → OSErrorClass
  | .enoent => .fileNotFound
  | .eexist => .fileExists
  | .enotdir => .notADirectory
  | .eisdir => .isADirectory
  | .eacces | .eperm => .permission
  | _ => .osError

/-- A plain component is encoded as a file name. -/
theorem isName_of_plain {s : Str} {b : Bytes} (hs : Plain s) (h : fsencode s = some b)
    (hnul : 0 ∉ b) : IsName b := by
  refine ⟨?_,?_,?_,?_,hnul⟩
  · rintro rfl
    exact hs.ne_nil (fsencode_eq_nil.mp h)
  · rintro rfl
    exact hs.ne_curdir (eq_of_fsencode_ascii h rfl (by simp [thisDir]))
  · rintro rfl
    exact hs.ne_pardir (eq_of_fsencode_ascii h rfl (by simp [parentDir]))
  · intro hmem
    obtain ⟨c,hc,hval⟩ := mem_of_mem_fsencode h hmem (by decide)
    have hslash : c = slash := Fin.ext hval
    exact hs.slash_notMem (hslash ▸ hc)

/-- The name of an entry is decoded to a plain component. -/
theorem plain_fsdecode (c : Name) : Plain (fsdecode c.bytes) := by
  have h := fsencode_fsdecode c.bytes
  refine ⟨?_,?_,?_,?_⟩
  · intro hs
    rw [hs] at h
    exact c.isName.ne_nil (Option.some.inj h).symm
  · intro hs
    rw [hs] at h
    exact c.isName.ne_thisDir (Option.some.inj h).symm
  · intro hs
    rw [hs] at h
    exact c.isName.ne_parentDir (Option.some.inj h).symm
  · intro hs
    exact c.isName.separator_notMem (mem_fsencode_of_mem h hs (by decide) rfl)

theorem nul_notMem_fsdecode (c : Name) : 0 ∉ fsdecode c.bytes := fun h =>
  c.isName.nul_notMem (mem_fsencode_of_mem (fsencode_fsdecode c.bytes) h (by decide) rfl)

abbrev Os (ε α : Type) := Program World (Exc ε) α

namespace Os
variable {ε α : Type}

def oserror (e : Errno) : Exc ε := .os (errorClass e) (some e)

/-- One system call. A failed one changes nothing. -/
def syscall (c : Call) (f : World → Except Errno (α × World)) : Os ε α := fun w =>
  match w.env.fault c w.calls with
  | some e => (.error (oserror e),w.tick)
  | none =>
    match f w with
    | .ok (a,v) => (.ok a,v.tick)
    | .error e => (.error (oserror e),w.tick)

/-- A path argument: not every string has an encoding, and no path has a NUL. -/
def path (s : Str) : Os ε Bytes :=
  match fsencode s with
  | none => .raise .unicodeEncodeError
  | some b => if 0 ∈ b then .raise .valueError else pure b

def open_ (s : Str) (flags : Flags) (mode : Mode) (dirFd : Option ℕ) : Os ε ℕ := do
  let p ← path s
  syscall (if flags.create then .create else .open) (World.openAt dirFd p flags mode)

def mkdir (s : Str) (mode : Mode) (dirFd : ℕ) : Os ε Unit := do
  let p ← path s
  syscall .mkdir (World.mkdirAt (some dirFd) p mode)

def unlink (s : Str) (dirFd : ℕ) : Os ε Unit := do
  let p ← path s
  syscall .unlink (World.unlinkAt (some dirFd) p)

def replace (src dst : Str) (srcDirFd dstDirFd : ℕ) : Os ε Unit := do
  let p ← path src
  let q ← path dst
  syscall .rename (World.renameAt (some srcDirFd) p (some dstDirFd) q)

/-- `os.stat` with `follow_symlinks=False`. -/
def stat (s : Str) (dirFd : ℕ) : Os ε StatResult := do
  let p ← path s
  syscall .stat (World.statAt (some dirFd) p)

def fstat (fd : ℕ) : Os ε StatResult := syscall .fstat (World.fstat fd)

def listdir (fd : ℕ) : Os ε (List Str) := do
  let names ← syscall .getdents (World.getdents fd)
  return names.map fun c => fsdecode c.bytes

def write (fd : ℕ) (bytes : Bytes) : Os ε Unit := syscall .write (World.append fd bytes)

/-- Read an open file to its end. -/
def read (fd : ℕ) : Os ε Bytes := fun w =>
  match w.nodeOf fd with
  | .ok (.file _ content) => (.ok content,w)
  | _ => (.error (oserror .ebadf),w)

/-- A descriptor is gone even if `close` fails. -/
def close (fd : ℕ) : Os ε Unit := fun w =>
  match w.env.fault .close w.calls, w.locOf fd with
  | some e, _ | none, .error e => (.error (oserror e),(w.close fd).tick)
  | none, .ok _ => (.ok (),(w.close fd).tick)

/-- A file object goes with the last reference to it, and closes its descriptor. Nobody learns of an
error. -/
def finalise (fd : ℕ) : Os ε Unit := fun w => (.ok (),(w.close fd).tick)

/-- The last reference to something goes that may own a file object. -/
def drop : Option ℕ → Os ε Unit
  | some fd => finalise fd
  | none => pure ()

/-- The part of `os.fdopen` that can fail. -/
def fdopen (_fd : ℕ) : Os ε Unit := syscall .fdopen fun w => .ok ((),w)

/-- A task may be cancelled wherever it awaits. -/
def checkpoint : Os ε Unit := fun w =>
  (if w.env.interrupt w.calls then .error .cancelled else .ok (),w.tick)

/-- Await an operation that a worker thread does: it may be cancelled before and after. -/
def awaitThread (x : Os ε α) : Os ε α := do
  checkpoint
  let a ← x
  checkpoint
  return a

/-- Await `os.fdopen` in a worker thread. If the task is cancelled when the file object is made
already, nobody gets that, and it may go before the task goes on. -/
def awaitFdopen (fd : ℕ) : Os ε Unit := do
  checkpoint
  fdopen fd
  Program.onError checkpoint fun w => drop (if w.env.freed w.calls then some fd else none) w

def digit (d : Fin 64) : CodePoint :=
  if d.val < 26 then Fin.ofNat _ (0x41 + d)
  else if d.val < 52 then Fin.ofNat _ (0x61 + d - 26)
  else if d.val < 62 then Fin.ofNat _ (0x30 + d - 52)
  else if d.val = 62 then 0x2D
  else 0x5F

/-- `secrets.token_urlsafe`. -/
def tokenUrlsafe : Os ε Str := fun w =>
  (.ok ((w.env.random w.calls).map digit),w.tick)

end Os
end Python
