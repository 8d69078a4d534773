import Mathlib.Algebra.Group.Nat.Defs
import Mathlib.Logic.Function.Basic
import CodeExecutorApi.Machine.Runs

/-! The session manager and the handlers that create, lock and delete sessions, as one machine.
A task runs from one await to the next in a single step; an event says which task resumes and
what the awaited operation gave it. Time passes only between steps. -/
namespace CodeExecutorApi

abbrev SessionId := ℕ
abbrev TaskId := ℕ

/-- The identity of a `Session` object, which also names its work directory. -/
abbrev Ref := ℕ

/-- The settings the manager reads, with the bounds config.py enforces. The n-th draw of
`secrets.token_urlsafe` is a parameter, and no two draws agree. -/
structure Config where
  maxSessions : ℕ
  inactivityTimeout : ℕ
  quotaMountpoint : Bool
  tokenUrlsafe : ℕ → SessionId
  maxSessions_pos : 1 ≤ maxSessions
  inactivityTimeout_pos : 1 ≤ inactivityTimeout
  token_injective : Function.Injective tokenUrlsafe

def projectIdBase : ℕ := 1000
def projectIdMax : ℕ := 2^31-1

/-- What a session directory holds, and what one stretch of a seed upload between two awaits
does to it. `none` is an exception. -/
structure Storage (D A : Type) where
  fresh : D
  act : A → D → Option D

/-- `asyncio.Lock`: a released lock goes to the waiter at the head of the queue. -/
structure Lock where
  owner : Option TaskId
  waiters : List TaskId
  deriving DecidableEq, Repr

def Lock.new : Lock := ⟨none,[]⟩
def Lock.free (l : Lock) : Bool := l.owner.isNone && l.waiters.isEmpty

structure Session where
  id : SessionId
  lock : Lock
  lastUsed : ℕ
  projectId : Option ℕ
  deriving DecidableEq, Repr

/-- Who awaits `SessionManager.create`. Without seeds the request is not multipart. -/
inductive Creator (A : Type)
  | create
  | handleCreateSession (seeds : Option (List A))
  | handleExecute

/-- Who runs inside `locked`: a request on a client's session, an explicit delete, the body of a
throwaway `/execute`, or the delete a handler issues for the session it created. -/
inductive Use
  | request
  | delete
  | execute (created : Ref)
  | cleanup (created : Ref)
  deriving DecidableEq, Repr

def Use.created : Use → Option Ref
  | .request | .delete => none
  | .execute s | .cleanup s => some s

/-- Only `handedOut` gives a session to the caller: `create` returned, or the answer was 200. -/
inductive Ending
  | handedOut
  | finished
  | sessionNotFound
  | sessionLockTimeout
  | sessionLimitReached
  | failed
  | cancelled
  deriving DecidableEq, Repr

/-- The await a task is suspended at. -/
inductive Pc (A : Type)
  | idle
  | applyQuota (k : Creator A) (s : Ref)
  | undoCreate (s : Ref)
  | seed (s : Ref) (parts : List A)
  | acquire (u : Use) (s : Ref)
  | body (u : Use) (s : Ref)
  | remove (u : Use) (s : Ref)
  | tryAcquire (now : ℕ) (s : Ref) (rest : List Ref)
  | deletion (cancelled : Bool) (now : ℕ) (s : Ref) (rest : List Ref)
  | deleted (cancelled : Bool) (now : ℕ) (s : Ref) (rest : List Ref)
  | done (created : Option Ref) (how : Ending)

/-- The directory whose removal, running in a worker thread, the task is waiting for. -/
def Pc.removing {A : Type} : Pc A → Option Ref
  | .undoCreate s | .remove _ s | .deletion _ _ s _ => some s
  | _ => none

/-- How the awaited operation ended. A `TimeoutError` is an `OSError`. -/
inductive Signal
  | ok
  | osError
  | timeout
  | exception
  | cancelled
  deriving DecidableEq, Repr

structure Manager (D A : Type) where
  sessions : List (SessionId × Ref)
  nextProjectId : ℕ
  freeProjectIds : List ℕ
  /-- The objects made so far are those below `next`. An object keeps the token it was drawn. -/
  heap : Ref → Session
  next : Ref
  dir : Ref → Option D
  /-- Worker threads running `_remove_tree` that no task waits for any more. -/
  abandoned : List Ref
  task : TaskId → Pc A
  clock : ℕ

namespace Manager
variable {D A : Type}

def init (cfg : Config) : Manager D A where
  sessions := []
  nextProjectId := projectIdBase
  freeProjectIds := []
  heap s := ⟨cfg.tokenUrlsafe s,Lock.new,0,none⟩
  next := 0
  dir _ := none
  abandoned := []
  task _ := .idle
  clock := 0

variable (m : Manager D A)

def get (id : SessionId) : Option Ref := m.sessions.lookup id

/-- `self._sessions.get(session.id) is session` -/
def registered (s : Ref) : Bool := m.get (m.heap s).id == some s

def setPc (t : TaskId) (pc : Pc A) : Manager D A := { m with task := Function.update m.task t pc }

def finish (t : TaskId) (created : Option Ref) (how : Ending) : Manager D A :=
  m.setPc t (.done created how)

def setSession (s : Ref) (x : Session) : Manager D A := { m with heap := Function.update m.heap s x }

def setLock (s : Ref) (l : Lock) : Manager D A := m.setSession s { m.heap s with lock := l }

def setDir (s : Ref) (d : Option D) : Manager D A := { m with dir := Function.update m.dir s d }

/-- `self._sessions.pop(session.id, None)` -/
def pop (s : Ref) : Manager D A :=
  { m with sessions := m.sessions.filter fun p => p.1 != (m.heap s).id }

def allocateProjectId : Option (ℕ × Manager D A) :=
  match m.freeProjectIds.getLast? with
  | some p => some (p,{ m with freeProjectIds := m.freeProjectIds.dropLast })
  | none =>
    if projectIdMax < m.nextProjectId then none
    else some (m.nextProjectId,{ m with nextProjectId := m.nextProjectId+1 })

def releaseProjectId : Option ℕ → Manager D A
  | some p => { m with freeProjectIds := m.freeProjectIds ++ [p] }
  | none => m

/-- Take the lock, leaving the queue if the task was in it. -/
def take (t : TaskId) (s : Ref) : Manager D A :=
  m.setLock s ⟨some t,(m.heap s).lock.waiters.erase t⟩

def unlock (s : Ref) : Manager D A := m.setLock s { (m.heap s).lock with owner := none }

def enqueue (t : TaskId) (s : Ref) : Manager D A :=
  m.setLock s { (m.heap s).lock with waiters := (m.heap s).lock.waiters ++ [t] }

def dequeue (t : TaskId) (s : Ref) : Manager D A :=
  m.setLock s { (m.heap s).lock with waiters := (m.heap s).lock.waiters.erase t }

/-- `session.last_used = time.monotonic()` -/
def touch (s : Ref) : Manager D A := m.setSession s { m.heap s with lastUsed := m.clock }

def register (s : Ref) (x : Session) : Manager D A :=
  { m.setSession s x with sessions := m.sessions ++ [(x.id,s)] }

/-- The await for a worker thread was cancelled, which does not stop the thread. -/
def abandon (s : Ref) : Manager D A := { m with abandoned := s::m.abandoned }

/-- `tempfile.mkdtemp`, for the session object made next. -/
def mkdtemp (fs : Storage D A) : Manager D A :=
  { m.setDir m.next (some fs.fresh) with next := m.next+1 }

/-- Inside `locked`, once the lock is held: check again that the session is the registered one,
stamp it and run the body. The body of a delete starts the removal at once. -/
def enter (raise : Manager D A → Manager D A) (t : TaskId) (u : Use) (s : Ref) : Manager D A :=
  if m.registered s then
    match u with
    | .request | .execute _ => (m.touch s).setPc t (.body u s)
    | .delete | .cleanup _ => (m.touch s).setPc t (.remove u s)
  else raise (m.unlock s)

/-- `locked(id)` up to its first await. -/
def lockedOr (raise : Manager D A → Manager D A) (t : TaskId) (u : Use) (id : SessionId) :
    Manager D A :=
  match m.get id with
  | none => raise m
  | some s =>
    if (m.heap s).lock.free then (m.take t s).enter raise t u s
    else (m.enqueue t s).setPc t (.acquire u s)

/-- `await session_manager.delete(session_id)` in a handler, for the session it created. `gone` is
how the handler ends if the session is not registered any more. -/
def cleanUp (t : TaskId) (s : Ref) (gone : Ending) : Manager D A :=
  m.lockedOr (fun m => m.finish t (some s) gone) t (.cleanup s) (m.heap s).id

/-- The `locked` block is over, the lock given back. A throwaway `/execute` now deletes its
session in its `finally`, where `SessionNotFound` is suppressed. -/
def leave (t : TaskId) (u : Use) (how : Ending) : Manager D A :=
  match u with
  | .request | .delete => m.finish t none how
  | .cleanup s => m.finish t (some s) how
  | .execute s => m.cleanUp t s how

def locked (t : TaskId) (u : Use) (id : SessionId) : Manager D A :=
  m.lockedOr (fun m => m.leave t u .sessionNotFound) t u id

/-- `create` returned: the caller goes on to its next await. -/
def created (t : TaskId) (s : Ref) : Creator A → Manager D A
  | .create | .handleCreateSession none => m.finish t (some s) .handedOut
  | .handleCreateSession (some parts) => m.setPc t (.seed s parts)
  | .handleExecute => m.locked t (.execute s) (m.heap s).id

/-- The session `create` makes, stamped with the time of its making. -/
def newSession (cfg : Config) (projectId : Option ℕ) : Session :=
  ⟨cfg.tokenUrlsafe m.next,Lock.new,m.clock,projectId⟩

/-- `SessionManager.create` up to its first await. A project id range that is used up is found
out only after the directory was made. -/
def create (fs : Storage D A) (cfg : Config) (t : TaskId) (k : Creator A) (mkdtemp : Bool) :
    Manager D A :=
  if cfg.maxSessions ≤ m.sessions.length then m.finish t none .sessionLimitReached
  else if mkdtemp then
    if cfg.quotaMountpoint then
      match (m.mkdtemp fs).allocateProjectId with
      | none => (m.mkdtemp fs).finish t none .failed
      | some (p,m') =>
        (m'.register m.next (m.newSession cfg (some p))).setPc t (.applyQuota k m.next)
    else ((m.mkdtemp fs).register m.next (m.newSession cfg none)).created t m.next k
  else m.finish t none .failed

/-- The sweep acts on a session it has locked only if it is registered and idle for too long. -/
def expired (cfg : Config) (now : ℕ) (s : Ref) : Bool :=
  m.registered s && decide ((m.heap s).lastUsed + cfg.inactivityTimeout < now)

/-- `_sweep_once` from one session of its snapshot on, up to the next await. -/
def sweepFrom (cfg : Config) (t : TaskId) (now : ℕ) : List Ref → Manager D A → Manager D A
  | [],m => m.finish t none .finished
  | s::rest,m =>
    if (m.heap s).lock.free then
      if m.expired cfg now s then (m.take t s).setPc t (.deletion false now s rest)
      else sweepFrom cfg t now rest ((m.take t s).unlock s)
    else (m.enqueue t s).setPc t (.tryAcquire now s rest)

/-- The sweep got the lock it had to wait for. -/
def sweepLocked (cfg : Config) (t : TaskId) (now : ℕ) (s : Ref) (rest : List Ref) :
    Manager D A :=
  if (m.take t s).expired cfg now s then (m.take t s).setPc t (.deletion false now s rest)
  else sweepFrom cfg t now rest ((m.take t s).unlock s)

def sweep (cfg : Config) (t : TaskId) : Manager D A :=
  sweepFrom cfg t m.clock (m.sessions.map Prod.snd) m

/-- `_delete` after its worker thread ended, or after its await was cancelled and the thread
goes on alone. Only a removal that succeeded gives the project id back. -/
def afterRemoval (s : Ref) : Signal → Manager D A
  | .ok => (((m.setDir s none).releaseProjectId (m.heap s).projectId)).pop s
  | .cancelled => (m.pop s).abandon s
  | _ => m.pop s

/-- The except branch of `create`: unregister and release at once, then remove the directory. -/
def undo (t : TaskId) (s : Ref) : Manager D A :=
  ((m.pop s).releaseProjectId (m.heap s).projectId).setPc t (.undoCreate s)

/-- How `delete` ends after the removal: an `OSError` was logged and swallowed. -/
def removalEnding : Signal → Ending
  | .cancelled => .cancelled
  | .exception => .failed
  | _ => .finished

/-- The next waiter to be given a released lock. -/
def granted (t : TaskId) (s : Ref) : Bool :=
  (m.heap s).lock.owner.isNone && (m.heap s).lock.waiters.head? == some t

/-- Task `t` resumes from its await. -/
def resume (fs : Storage D A) (cfg : Config) (t : TaskId) (sig : Signal) : Option (Manager D A) :=
  match m.task t with
  | .idle | .done _ _ => none
  | .applyQuota k s => some (if sig = .ok then m.created t s k else m.undo t s)
  | .undoCreate s =>
    match sig with
    | .ok => some ((m.setDir s none).finish t (some s) .failed)
    | .cancelled => some ((m.abandon s).finish t (some s) .cancelled)
    | _ => some (m.finish t (some s) .failed)
  | .seed s parts =>
    match sig,parts with
    | .cancelled,_ => some (m.finish t (some s) .cancelled)
    | .ok,[] => some (m.finish t (some s) .handedOut)
    | .ok,a::parts =>
      match (m.dir s).bind (fs.act a) with
      | some d => some ((m.setDir s (some d)).setPc t (.seed s parts))
      | none => some (m.cleanUp t s .sessionNotFound)
    | _,_ => some (m.cleanUp t s .sessionNotFound)
  | .acquire u s =>
    match sig with
    | .ok =>
      if m.granted t s then
        some ((m.take t s).enter (fun m => m.leave t u .sessionNotFound) t u s)
      else none
    | .timeout => some ((m.dequeue t s).leave t u .sessionLockTimeout)
    | .cancelled => some ((m.dequeue t s).leave t u .cancelled)
    | _ => none
  | .body u s => some ((m.unlock s).leave t u (if sig = .cancelled then .cancelled else .finished))
  | .remove u s => some (((m.afterRemoval s sig).unlock s).leave t u (removalEnding sig))
  | .tryAcquire now s rest =>
    match sig with
    | .ok => if m.granted t s then some (m.sweepLocked cfg t now s rest) else none
    | .timeout => some (sweepFrom cfg t now rest (m.dequeue t s))
    | .cancelled => some ((m.dequeue t s).finish t none .cancelled)
    | _ => none
  | .deletion cancelled now s rest =>
    -- a first cancellation only ends the shield, a second one reaches the deletion itself
    if sig = .cancelled ∧ cancelled = false then some (m.setPc t (.deletion true now s rest))
    else some ((m.afterRemoval s sig).setPc t (.deleted cancelled now s rest))
  | .deleted cancelled now s rest =>
    if sig = .cancelled ∨ cancelled = true then some ((m.unlock s).finish t none .cancelled)
    else some (sweepFrom cfg t now rest (m.unlock s))

end Manager

inductive Event (D A : Type)
  | tick (d : ℕ)
  | create (t : TaskId) (k : Creator A) (mkdtemp : Bool)
  /-- A request enters `locked(id)`. -/
  | request (t : TaskId) (id : SessionId)
  | delete (t : TaskId) (id : SessionId)
  | sweep (t : TaskId)
  | resume (t : TaskId) (sig : Signal)
  /-- The body running in task `t` changes its session directory. -/
  | write (t : TaskId) (d : D)
  /-- The removal task `t` waits for has taken part of the directory. -/
  | erode (t : TaskId) (d : D)
  | abandonedErode (s : Ref) (d : D)
  /-- A removal that no task waits for any more is over. One that was cancelled before its thread began
  ends so as well, with nothing removed. -/
  | abandonedEnd (s : Ref) (removed : Bool)

namespace Manager
variable {D A : Type}

def idle (m : Manager D A) (t : TaskId) : Bool :=
  match m.task t with
  | .idle => true
  | _ => false

/-- One step of the machine. -/
def step (fs : Storage D A) (cfg : Config) (m : Manager D A) : Event D A → Option (Manager D A)
  | .tick d => some { m with clock := m.clock+d }
  | .create t k mkdtemp => if m.idle t then some (m.create fs cfg t k mkdtemp) else none
  | .request t id => if m.idle t then some (m.locked t .request id) else none
  | .delete t id => if m.idle t then some (m.locked t .delete id) else none
  | .sweep t => if m.idle t then some (m.sweep cfg t) else none
  | .resume t sig => m.resume fs cfg t sig
  | .write t d =>
    match m.task t with
    | .body _ s => (m.dir s).map fun _ => m.setDir s (some d)
    | _ => none
  | .erode t d =>
    (m.task t).removing.bind fun s => (m.dir s).map fun _ => m.setDir s (some d)
  | .abandonedErode s d =>
    if s ∈ m.abandoned then (m.dir s).map fun _ => m.setDir s (some d) else none
  | .abandonedEnd s removed =>
    if s ∈ m.abandoned then
      some { m.setDir s (if removed then none else m.dir s) with abandoned := m.abandoned.erase s }
    else none

end Manager

/-- The tightest timeout config.py accepts, two sessions, and project quotas on. -/
def Config.tight : Config where
  maxSessions := 2
  inactivityTimeout := 1
  quotaMountpoint := true
  tokenUrlsafe n := n
  maxSessions_pos := by decide
  inactivityTimeout_pos := by decide
  token_injective := Function.injective_id

/-- Directories as lists of what was written to them. -/
def Storage.log : Storage (List ℕ) ℕ where
  fresh := []
  act a d := some (d ++ [a])

end CodeExecutorApi
