import CodeExecutorApi.Posix.Tree

/-! The file system calls of a POSIX kernel on one file tree, for a process that the owner
permission bits apply to. Descriptors stand for places of the tree. A file has one name only. -/
namespace Posix

inductive Errno
  | eacces | ebadf | edquot | eexist | efbig | einval | eio | eisdir | eloop | emfile | enametoolong
  | enfile | enodev | enoent | enomem | enospc | enotdir | enotempty | enxio | eperm
  deriving DecidableEq, Repr

inductive Call
  | open | create | fdopen | payload | close | write | mkdir | rename | unlink | stat | fstat
  | getdents
  deriving DecidableEq, Repr

instance digits_neZero : NeZero 64 := ⟨by decide⟩

/-- What no program decides, by the number of the call: a failure the tree does not explain, inode
numbers, clock, directory sizes, random digits in base 64, where a task is cancelled, and whether
what a cancelled await would have returned is freed before the task goes on. `refuses` tells the
file names that guessing a media type raises on. A path may lead through `maxLinks` symbolic
links. -/
structure Environment where
  maxLinks : ℕ
  fault : Call → ℕ → Option Errno
  ino : ℕ → ℕ
  now : ℕ → ℤ
  dirSize : ℕ → ℕ
  random : ℕ → List (Fin 64)
  interrupt : ℕ → Bool
  freed : ℕ → Bool
  refuses : List (Fin 0x110000) → Bool

/-- No number is given to two descriptors. `closed` lists what `close` was called with, the last
call first. -/
structure World where
  env : Environment
  root : Node
  fds : List (ℕ × Loc)
  nextFd : ℕ
  calls : ℕ
  closed : List ℕ := []

/-- The flags of `open`. Without `write` it is read-only. -/
structure Flags where
  write : Bool
  create : Bool
  exclusive : Bool
  directory : Bool
  nofollow : Bool
  nonblock : Bool
  deriving DecidableEq, Repr

def nameMax : ℕ := 255

def pathMax : ℕ := 4096

/-- The components of a path. -/
def comps (path : Bytes) : List Bytes := (path.splitOn separator).filter fun c => c ≠ []

section Lookup
variable (root : Node) (follow : Bool)

/-- Resolve components from a place on. A symbolic link is handed to `onLink`, except a last one
that is not to be followed. The last component need not exist. -/
def descend (onLink : Loc → List Bytes → Except Errno Loc) : Loc → List Bytes → Except Errno Loc
  | loc, [] => .ok loc
  | loc, c :: rest =>
    match root.get loc with
    | some (.dir a es) =>
      if a.mode.search = false then .error .eacces
      else if c = thisDir then descend onLink loc rest
      else if c = parentDir then descend onLink loc.dropLast rest
      else if nameMax < c.length then .error .enametoolong
      else if h : IsName c then
        match es.lookup ⟨c,h⟩ with
        | none => if rest = [] then .ok (loc ++ [⟨c,h⟩]) else .error .enoent
        | some (.symlink _ target) =>
          if rest = [] ∧ follow = false then .ok (loc ++ [⟨c,h⟩])
          else onLink (if target.head? = some separator then [] else loc) (comps target ++ rest)
        | some _ => descend onLink (loc ++ [⟨c,h⟩]) rest
      else .error .enoent
    | _ => .error .enotdir

/-- Resolve components, through at most the given number of links. -/
def walk : ℕ → Loc → List Bytes → Except Errno Loc
  | 0 => descend root follow fun _ _ => .error .eloop
  | links+1 => descend root follow (walk links)

/-- The place a path leads to. -/
def namei (maxLinks : ℕ) (cwd : Loc) (path : Bytes) : Except Errno Loc :=
  if path = [] then .error .enoent
  else if pathMax ≤ path.length then .error .enametoolong
  else walk root follow maxLinks (if path.head? = some separator then [] else cwd) (comps path)

end Lookup

namespace World

/-- One more call was made. -/
def tick (w : World) : World := {w with calls := w.calls+1}

def locOf (w : World) (fd : ℕ) : Except Errno Loc :=
  match w.fds.lookup fd with
  | some loc => .ok loc
  | none => .error .ebadf

/-- The directory a relative path starts at. -/
def base (w : World) : Option ℕ → Except Errno Loc
  | none => .ok []
  | some fd => w.locOf fd

def alloc (w : World) (loc : Loc) : ℕ × World :=
  (w.nextFd,{w with fds := (w.nextFd,loc) :: w.fds, nextFd := w.nextFd+1})

def update (w : World) (loc : Loc) (f : Node → Node) : World := {w with root := w.root.modify f loc}

def newAttr (w : World) (mode : Mode) : Attr :=
  ⟨w.env.ino w.calls,mode,w.env.dirSize w.calls,w.env.now w.calls,w.env.now w.calls⟩

/-- A directory whose entries change gets a new size and new times. -/
def setEntries (f : List (Name × Node) → List (Name × Node)) (w : World) (loc : Loc) : World :=
  w.update loc fun n =>
    match n with
    | .dir a es => .dir {w.newAttr a.mode with ino := a.ino} (f es)
    | n => n

/-- Give a node the name a place ends in. -/
def link (w : World) (loc : Loc) (n : Node) : World :=
  match loc.getLast? with
  | some name => w.setEntries (setEntry name n) loc.dropLast
  | none => w

def unlink (w : World) (loc : Loc) : World :=
  match loc.getLast? with
  | some name => w.setEntries (eraseEntry name) loc.dropLast
  | none => w

/-- The directory that holds a place can be changed. -/
def writable (w : World) (loc : Loc) : Except Errno Unit :=
  match w.root.get loc.dropLast with
  | some n => if n.attr.mode.write then .ok () else .error .eacces
  | none => .error .enoent

/-- What `open` says to an existing entry. A last symbolic link is met only unfollowed. -/
def openNode (n : Node) (flags : Flags) : Except Errno Unit :=
  if flags.directory ∧ n.type ≠ .directory then .error .enotdir
  else
    match n with
    | .symlink .. => .error .eloop
    | .dir a _ =>
      if flags.write then .error .eisdir else if a.mode.read then .ok () else .error .eacces
    | .file a _ =>
      if (if flags.write then a.mode.write else a.mode.read) then .ok () else .error .eacces
    | .special a kind =>
      if (if flags.write then a.mode.write else a.mode.read) then
        match kind with
        | .fifo | .device true => .ok ()
        | .socket => .error .enxio
        | .device false => .error .enodev
      else .error .eacces

/-- Do something at the place a path leads to. -/
def resolving {α : Type} (follow : Bool) (dirFd : Option ℕ) (path : Bytes)
    (f : Loc → World → Except Errno (α × World)) (w : World) : Except Errno (α × World) := do
  let cwd ← w.base dirFd
  let loc ← namei w.root follow w.env.maxLinks cwd path
  f loc w

def openLoc (flags : Flags) (mode : Mode) (loc : Loc) (w : World) : Except Errno (ℕ × World) :=
  match w.root.get loc with
  | some n =>
    if flags.create ∧ flags.exclusive then .error .eexist
    else (openNode n flags).map fun _ => w.alloc loc
  | none =>
    if flags.create then
      (w.writable loc).map fun _ => (w.link loc (.file (w.newAttr mode) [])).alloc loc
    else .error .enoent

/-- A new file is never made behind a symbolic link. -/
def openAt (dirFd : Option ℕ) (path : Bytes) (flags : Flags) (mode : Mode) :
    World → Except Errno (ℕ × World) :=
  resolving (!flags.nofollow && !(flags.create && flags.exclusive)) dirFd path (openLoc flags mode)

def mkdirLoc (mode : Mode) (loc : Loc) (w : World) : Except Errno (Unit × World) :=
  match w.root.get loc with
  | some _ => .error .eexist
  | none => (w.writable loc).map fun _ => ((),w.link loc (.dir (w.newAttr mode) []))

def mkdirAt (dirFd : Option ℕ) (path : Bytes) (mode : Mode) : World → Except Errno (Unit × World) :=
  resolving false dirFd path (mkdirLoc mode)

def unlinkLoc (loc : Loc) (w : World) : Except Errno (Unit × World) :=
  match w.root.get loc with
  | none => .error .enoent
  | some n => do
    w.writable loc
    if n.isDir then .error .eisdir else return ((),w.unlink loc)

def unlinkAt (dirFd : Option ℕ) (path : Bytes) : World → Except Errno (Unit × World) :=
  resolving false dirFd path unlinkLoc

/-- What may be renamed over an existing entry. -/
def replaceable (n : Node) : Option Node → Except Errno Unit
  | none => .ok ()
  | some (.dir _ es) =>
    if n.isDir = false then .error .eisdir
    else if es ≠ [] then .error .enotempty
    else .ok ()
  | some _ => if n.isDir then .error .enotdir else .ok ()

def renameLoc (old new : Loc) (w : World) : Except Errno (Unit × World) :=
  match w.root.get old with
  | none => .error .enoent
  | some n => do
    w.writable old
    w.writable new
    if old = new then return ((),w)
    else if n.isDir ∧ old <+: new then .error .einval
    else
      replaceable n (w.root.get new)
      return ((),(w.unlink old).link new n)

def renameAt (srcFd : Option ℕ) (src : Bytes) (dstFd : Option ℕ) (dst : Bytes) :
    World → Except Errno (Unit × World) :=
  resolving false srcFd src fun old => resolving false dstFd dst fun new => renameLoc old new

def statLoc (loc : Loc) (w : World) : Except Errno (StatResult × World) :=
  match w.root.get loc with
  | some n => .ok (n.stat,w)
  | none => .error .enoent

/-- `lstat` relative to a directory. -/
def statAt (dirFd : Option ℕ) (path : Bytes) : World → Except Errno (StatResult × World) :=
  resolving false dirFd path statLoc

def nodeOf (w : World) (fd : ℕ) : Except Errno Node := do
  let loc ← w.locOf fd
  match w.root.get loc with
  | some n => return n
  | none => .error .ebadf

def fstat (fd : ℕ) (w : World) : Except Errno (StatResult × World) := do
  let n ← w.nodeOf fd
  return (n.stat,w)

/-- The names in a directory, without `.` and `..`. -/
def getdents (fd : ℕ) (w : World) : Except Errno (List Name × World) := do
  let n ← w.nodeOf fd
  if n.isDir then return (n.entries.map Prod.fst,w) else .error .enotdir

/-- Append to an open file. -/
def append (fd : ℕ) (bytes : Bytes) (w : World) : Except Errno (Unit × World) := do
  let loc ← w.locOf fd
  match w.root.get loc with
  | some (.file ..) =>
    return ((),w.update loc fun n =>
      match n with
      | .file a content =>
        .file {a with mtimeNs := w.env.now w.calls, ctimeNs := w.env.now w.calls} (content ++ bytes)
      | n => n)
  | _ => .error .ebadf

def close (fd : ℕ) (w : World) : World :=
  {w with fds := w.fds.filter fun e => e.1 ≠ fd, closed := fd :: w.closed}

end World
end Posix
