import CodeExecutorApi.Machine.Runs
import CodeExecutorApi.Machine.Semaphore
import CodeExecutorApi.Sessions.Manager

/-! The requests that execute code, each inside `locked` and `execution_slot`, and their containers.
A request runs from one await to the next in a single step; podman takes steps of its own. -/
namespace CodeExecutorApi
open Machine

/-- What there is of the container a request asked for. -/
inductive Container
  | none
  | pending
  | running
  | gone
  deriving DecidableEq, Repr

/-- The process `podman run`. It exits when its container is gone, or dies before. -/
inductive Client
  | none
  | alive
  | exited
  | died
  deriving DecidableEq, Repr

/-- The await of `handle_execute` a request is suspended at. From `run_container` on, `raising` says
that an exception is on its way out. -/
inductive ExecPc
  | idle
  | acquireLock
  | commit
  | acquireSlot
  | snapshot
  | spawn
  | wait
  | removeContainer (raising : Bool)
  | reap (raising : Bool)
  | readOutput (raising : Bool)
  | collectChanges
  | done
  deriving DecidableEq, Repr

def ExecPc.holdsLock : ExecPc → Bool
  | .idle | .acquireLock | .done => false
  | _ => true

def ExecPc.holdsSlot : ExecPc → Bool
  | .idle | .acquireLock | .commit | .acquireSlot | .done => false
  | _ => true

/-- One request. `removed` is what `_remove_container` returned. -/
structure Execution where
  session : Ref
  pc : ExecPc
  container : Container
  client : Client
  removed : Option Bool
  deriving DecidableEq, Repr

/-- The slots that are free, the owner of each lock, and the requests. Which of those that wait gets a
free lock or slot is left open. -/
structure Executions where
  semaphore : ℕ
  lock : Ref → Option TaskId
  exec : TaskId → Execution

inductive ExecEvent
  | request (t : TaskId) (s : Ref)
  | resume (t : TaskId) (sig : Signal)
  | containerStart (t : TaskId)
  | containerExit (t : TaskId)
  | clientExit (t : TaskId)
  | clientDeath (t : TaskId)
  deriving DecidableEq, Repr

/-- `process.kill()` -/
def Execution.kill (x : Execution) : Execution :=
  { x with client := if x.client = .alive then .died else x.client }

namespace Executions

def init (maxConcurrent : ℕ) : Executions :=
  ⟨maxConcurrent,fun _ => none,fun _ => ⟨0,.idle,.none,.none,none⟩⟩

variable (m : Executions) (t : TaskId)

def set (x : Execution) : Executions := { m with exec := Function.update m.exec t x }

def setPc (pc : ExecPc) : Executions := m.set t { m.exec t with pc := pc }

def setLock (s : Ref) (owner : Option TaskId) : Executions :=
  { m with lock := Function.update m.lock s owner }

/-- Leave `locked`. -/
def unlock : Executions := (m.setPc t .done).setLock (m.exec t).session none

/-- Leave `execution_slot` and `locked`. There is no await between the two. -/
def leave : Executions := { m.unlock t with semaphore := m.semaphore+1 }

/-- The `finally` of `run_container` after a wait that ended: only a client that is still alive has
its container removed. -/
def afterWait (raising : Bool) : Executions :=
  m.setPc t (if (m.exec t).client = .alive then .removeContainer raising else .readOutput raising)

def resume (sig : Signal) : Option Executions :=
  match (m.exec t).pc with
  | .idle | .done => none
  | .acquireLock =>
    match sig with
    | .ok =>
      if m.lock (m.exec t).session = none then
        some ((m.setPc t .commit).setLock (m.exec t).session (some t))
      else none
    | .timeout | .cancelled => some (m.setPc t .done)
    | _ => none
  | .commit => some (if sig = .ok then m.setPc t .acquireSlot else m.unlock t)
  | .acquireSlot =>
    match sig with
    | .ok =>
      if 0 < m.semaphore then some { m.setPc t .snapshot with semaphore := m.semaphore-1 }
      else none
    | .timeout | .cancelled => some (m.unlock t)
    | _ => none
  | .snapshot => some (if sig = .ok then m.setPc t .spawn else m.leave t)
  | .spawn =>
    some (if sig = .ok then
      m.set t { m.exec t with pc := .wait, container := .pending, client := .alive }
    else m.setPc t (.readOutput true))
  | .wait =>
    match sig with
    | .ok => if (m.exec t).client = .alive then none else some (m.afterWait t false)
    | .timeout => some (m.afterWait t false)
    | .cancelled => some (m.afterWait t true)
    | _ => none
  | .removeContainer raising =>
    match sig with
    | .ok => some (m.set t { (m.exec t).kill with
        pc := .reap raising, container := .gone, removed := some true })
    | .osError | .timeout | .exception =>
      some (m.set t { (m.exec t).kill with pc := .reap raising, removed := some false })
    | .cancelled => some (m.leave t)
  | .reap raising => some (if sig = .cancelled then m.leave t else m.setPc t (.readOutput raising))
  | .readOutput raising =>
    some (if sig = .ok ∧ raising = false then m.setPc t .collectChanges else m.leave t)
  | .collectChanges => some (m.leave t)

/-- One step. `podman run` exits only once its container is gone; a client that dies leaves its
container as it is, and one that is not running yet never will be. -/
def step : ExecEvent → Option Executions
  | .request t s =>
    if (m.exec t).pc = .idle then some (m.set t ⟨s,.acquireLock,.none,.none,none⟩) else none
  | .resume t sig => m.resume t sig
  | .containerStart t =>
    if (m.exec t).container = .pending ∧ (m.exec t).client = .alive then
      some (m.set t { m.exec t with container := .running })
    else none
  | .containerExit t =>
    if (m.exec t).container = .running then some (m.set t { m.exec t with container := .gone })
    else none
  | .clientExit t =>
    if (m.exec t).client = .alive ∧ (m.exec t).container ≠ .running then
      some (m.set t { m.exec t with container := .gone, client := .exited })
    else none
  | .clientDeath t =>
    if (m.exec t).client = .alive then some (m.set t { m.exec t with client := .died }) else none

/-- The container of the request `t` is running. -/
def Runs : Prop := (m.exec t).container = .running

instance : Decidable (m.Runs t) := inferInstanceAs (Decidable (_ = _))

end Executions

/-- Nothing has made sure that the container is gone: its client died and nobody tried to remove
it, or the removal did not succeed. -/
def Execution.unremoved (x : Execution) : Bool :=
  x.removed = some false ∨ x.client = .died ∧ x.removed = none

namespace Executions

/-- A request gives its slot back while its container, not removed, is still running; or a client
that was left alive starts its container after that. -/
def abandons (m : Executions) : ExecEvent → Bool
  | .resume t sig =>
    let x := m.exec t
    match x.pc with
    | .removeContainer _ => sig = .cancelled ∧ x.container = .running
    | .reap _ => sig = .cancelled ∧ x.container = .running ∧ x.unremoved
    | .readOutput raising =>
      ¬(sig = .ok ∧ raising = false) ∧ x.container = .running ∧ x.unremoved
    | .collectChanges => x.container = .running ∧ x.unremoved
    | _ => false
  | .containerStart t => (m.exec t).pc = .done
  | _ => false

end Executions

/-- What holds of a request and its container at each await. -/
structure Execution.Tended (x : Execution) : Prop where
  early : x.pc.holdsSlot = false → x.pc ≠ .done → x.client = .none ∧ x.removed = none
  starting : x.pc = .snapshot ∨ x.pc = .spawn → x.client = .none ∧ x.removed = none
  waiting : (x.pc = .wait ∨ ∃ r, x.pc = .removeContainer r) → x.client ≠ .none ∧ x.removed = none
  ending : ((∃ r, x.pc = .reap r) ∨ (∃ r, x.pc = .readOutput r) ∨ x.pc = .collectChanges) →
    x.client ≠ .alive ∧ (x.container = .running → x.unremoved = true)
  unasked : x.client = .none → x.container = .none
  exited : x.client = .exited → x.container = .gone
  removed : x.removed = some true → x.container = .gone

namespace Execution
variable {x : Execution}

theorem Tended.done (h : x.Tended) : ({ x with pc := .done } : Execution).Tended :=
  ⟨fun _ hdone => absurd rfl hdone,by simp,by simp,by simp,h.unasked,h.exited,h.removed⟩

theorem Tended.committed (h : x.Tended) (pc : x.pc = .commit) :
    ({ x with pc := .acquireSlot } : Execution).Tended := by
  have hearly := h.early (by rw [pc]; rfl) (by rw [pc]; simp)
  exact ⟨fun _ _ => hearly,by simp,by simp,by simp,h.unasked,h.exited,h.removed⟩

theorem Tended.stamped (h : x.Tended) (pc : x.pc = .snapshot) :
    ({ x with pc := .spawn } : Execution).Tended := by
  have hstarting := h.starting (.inl pc)
  exact ⟨nofun,fun _ => hstarting,by simp,by simp,h.unasked,h.exited,h.removed⟩

theorem Tended.spawned (h : x.Tended) (pc : x.pc = .spawn) :
    ({ x with pc := .wait, container := .pending, client := .alive } : Execution).Tended := by
  have hstarting := h.starting (.inr pc)
  constructor <;> simp_all [ExecPc.holdsSlot]

theorem Tended.overdue (h : x.Tended) (pc : x.pc = .wait) (r : Bool) :
    ({ x with pc := .removeContainer r } : Execution).Tended := by
  have hwaiting := h.waiting (.inl pc)
  exact ⟨nofun,by simp,fun _ => hwaiting,by simp,h.unasked,h.exited,h.removed⟩

/-- An await after the container was dealt with. -/
theorem Tended.after (h : x.Tended) (hending : x.client ≠ .alive ∧
    (x.container = .running → x.unremoved = true)) {next : ExecPc}
    (hnext : (∃ r, next = .readOutput r) ∨ next = .collectChanges) :
    ({ x with pc := next } : Execution).Tended := by
  rcases hnext with ⟨r,rfl⟩ | rfl
  · exact ⟨nofun,by simp,by simp,fun _ => hending,h.unasked,h.exited,h.removed⟩
  · exact ⟨nofun,by simp,by simp,fun _ => hending,h.unasked,h.exited,h.removed⟩

theorem Tended.unspawned (h : x.Tended) (pc : x.pc = .spawn) (r : Bool) :
    ({ x with pc := .readOutput r } : Execution).Tended := by
  have hclient := (h.starting (.inr pc)).1
  refine h.after ⟨?_,fun hrunning => ?_⟩ (.inl ⟨r,rfl⟩)
  · rw [hclient]
    simp
  · exact absurd ((h.unasked hclient).symm.trans hrunning) (by simp)

/-- The client ended by itself, and with it the container, or it died and left it as it is. -/
theorem Tended.waited (h : x.Tended) (pc : x.pc = .wait) (client : x.client ≠ .alive) (r : Bool) :
    ({ x with pc := .readOutput r } : Execution).Tended := by
  obtain ⟨hasked,hremoved⟩ := h.waiting (.inl pc)
  refine h.after ⟨client,fun hrunning => ?_⟩ (.inl ⟨r,rfl⟩)
  cases hclient : x.client with
  | none => exact absurd hclient hasked
  | alive => exact absurd hclient client
  | exited => exact absurd ((h.exited hclient).symm.trans hrunning) (by simp)
  | died => simp [unremoved,hclient,hremoved]

theorem Tended.removal (h : x.Tended) {r : Bool} (pc : x.pc = .removeContainer r) :
    ({ x.kill with pc := .reap r, container := .gone, removed := some true } : Execution).Tended := by
  have hwaiting := h.waiting (.inr ⟨r,pc⟩)
  cases hclient : x.client <;> constructor <;> simp_all [ExecPc.holdsSlot,kill]

theorem Tended.unremoval (h : x.Tended) {r : Bool} (pc : x.pc = .removeContainer r) :
    ({ x.kill with pc := .reap r, removed := some false } : Execution).Tended := by
  have hwaiting := h.waiting (.inr ⟨r,pc⟩)
  have hexited := h.exited
  cases hclient : x.client <;> constructor <;> simp_all [ExecPc.holdsSlot,unremoved,kill]

end Execution

namespace Executions
variable {m m' : Executions} {e : ExecEvent} {t : TaskId}

@[simp] theorem set_exec (m : Executions) (t t' : TaskId) (x : Execution) :
    (m.set t x).exec t' = if t' = t then x else m.exec t' := by
  simp [set,Function.update_apply]

/-- How a request can leave its slot and its lock. -/
inductive Leaves (m : Executions) (t : TaskId) : Signal → Prop
  | snapshot {sig} (pc : (m.exec t).pc = .snapshot) (hsig : sig ≠ .ok) : Leaves m t sig
  | removal {r} (pc : (m.exec t).pc = .removeContainer r) : Leaves m t .cancelled
  | reap {r} (pc : (m.exec t).pc = .reap r) : Leaves m t .cancelled
  | output {r sig} (pc : (m.exec t).pc = .readOutput r) (hsig : ¬(sig = .ok ∧ r = false)) :
      Leaves m t sig
  | collected {sig} (pc : (m.exec t).pc = .collectChanges) : Leaves m t sig

/-- Every step, by what becomes of the request it is about. -/
inductive Steps (m : Executions) (t : TaskId) : ExecEvent → Executions → Prop
  | request {s} (pc : (m.exec t).pc = .idle) :
      Steps m t (.request t s) (m.set t ⟨s,.acquireLock,.none,.none,none⟩)
  | locked (pc : (m.exec t).pc = .acquireLock) (free : m.lock (m.exec t).session = none) :
      Steps m t (.resume t .ok) ((m.setPc t .commit).setLock (m.exec t).session (some t))
  | refused {sig} (pc : (m.exec t).pc = .acquireLock) : Steps m t (.resume t sig) (m.setPc t .done)
  | committed (pc : (m.exec t).pc = .commit) : Steps m t (.resume t .ok) (m.setPc t .acquireSlot)
  | unlocked {sig} (pc : (m.exec t).pc = .commit ∨ (m.exec t).pc = .acquireSlot) :
      Steps m t (.resume t sig) (m.unlock t)
  | slotted {n} (pc : (m.exec t).pc = .acquireSlot) (free : m.semaphore = n+1) :
      Steps m t (.resume t .ok) { m.setPc t .snapshot with semaphore := n }
  | stamped (pc : (m.exec t).pc = .snapshot) : Steps m t (.resume t .ok) (m.setPc t .spawn)
  | spawned (pc : (m.exec t).pc = .spawn) : Steps m t (.resume t .ok)
      (m.set t { m.exec t with pc := .wait, container := .pending, client := .alive })
  | unspawned {sig} (pc : (m.exec t).pc = .spawn) :
      Steps m t (.resume t sig) (m.setPc t (.readOutput true))
  | waited {sig r} (pc : (m.exec t).pc = .wait) (client : (m.exec t).client ≠ .alive) :
      Steps m t (.resume t sig) (m.setPc t (.readOutput r))
  | overdue {sig r} (pc : (m.exec t).pc = .wait) (client : (m.exec t).client = .alive) :
      Steps m t (.resume t sig) (m.setPc t (.removeContainer r))
  | removed {r} (pc : (m.exec t).pc = .removeContainer r) : Steps m t (.resume t .ok)
      (m.set t { (m.exec t).kill with pc := .reap r, container := .gone, removed := some true })
  | unremoved {r sig} (pc : (m.exec t).pc = .removeContainer r) : Steps m t (.resume t sig)
      (m.set t { (m.exec t).kill with pc := .reap r, removed := some false })
  | reaped {r sig} (pc : (m.exec t).pc = .reap r) (hsig : sig ≠ .cancelled) :
      Steps m t (.resume t sig) (m.setPc t (.readOutput r))
  | read (pc : (m.exec t).pc = .readOutput false) :
      Steps m t (.resume t .ok) (m.setPc t .collectChanges)
  | leaves {sig} (leaves : Leaves m t sig) : Steps m t (.resume t sig) (m.leave t)
  | started (pending : (m.exec t).container = .pending) (client : (m.exec t).client = .alive) :
      Steps m t (.containerStart t) (m.set t { m.exec t with container := .running })
  | ended (running : (m.exec t).container = .running) :
      Steps m t (.containerExit t) (m.set t { m.exec t with container := .gone })
  | exited (client : (m.exec t).client = .alive) (container : (m.exec t).container ≠ .running) :
      Steps m t (.clientExit t) (m.set t { m.exec t with container := .gone, client := .exited })
  | died (client : (m.exec t).client = .alive) :
      Steps m t (.clientDeath t) (m.set t { m.exec t with client := .died })

theorem afterWait_cases {sig : Signal} {r : Bool} (pc : (m.exec t).pc = .wait) :
    Steps m t (.resume t sig) (m.afterWait t r) := by
  rw [afterWait]
  split_ifs with hclient
  · exact .overdue pc hclient
  · exact .waited pc hclient

theorem resume_cases {sig : Signal} (hstep : m.resume t sig = some m') :
    Steps m t (.resume t sig) m' := by
  unfold resume at hstep
  cases hpc : (m.exec t).pc <;> simp only [hpc,reduceCtorEq] at hstep
  case acquireLock =>
    cases sig
    case ok =>
      simp only at hstep
      split_ifs at hstep with hfree
      cases hstep
      exact .locked hpc hfree
    case timeout | cancelled =>
      cases hstep
      exact .refused hpc
    all_goals cases hstep
  case commit =>
    split_ifs at hstep with hsig <;> cases hstep
    · subst hsig
      exact .committed hpc
    · exact .unlocked (.inl hpc)
  case acquireSlot =>
    cases sig
    case ok =>
      simp only at hstep
      split_ifs at hstep with hfree
      cases hstep
      exact .slotted hpc (Nat.succ_pred_eq_of_pos hfree).symm
    case timeout | cancelled =>
      cases hstep
      exact .unlocked (.inr hpc)
    all_goals cases hstep
  case snapshot =>
    split_ifs at hstep with hsig <;> cases hstep
    · subst hsig
      exact .stamped hpc
    · exact .leaves (.snapshot hpc hsig)
  case spawn =>
    split_ifs at hstep with hsig <;> cases hstep
    · subst hsig
      exact .spawned hpc
    · exact .unspawned hpc
  case wait =>
    cases sig
    case ok =>
      simp only at hstep
      split_ifs at hstep with hclient
      cases hstep
      exact afterWait_cases hpc
    case timeout | cancelled =>
      cases hstep
      exact afterWait_cases hpc
    all_goals cases hstep
  case removeContainer r =>
    cases sig <;> cases hstep
    case ok => exact .removed hpc
    case cancelled => exact .leaves (.removal hpc)
    all_goals exact .unremoved hpc
  case reap r =>
    split_ifs at hstep with hsig <;> cases hstep
    · subst hsig
      exact .leaves (.reap hpc)
    · exact .reaped hpc hsig
  case readOutput r =>
    split_ifs at hstep with hsig <;> cases hstep
    · obtain ⟨rfl,rfl⟩ := hsig
      exact .read hpc
    · exact .leaves (.output hpc hsig)
  case collectChanges =>
    cases hstep
    exact .leaves (.collected hpc)

theorem step_cases (hstep : m.step e = some m') : ∃ t, Steps m t e m' := by
  cases e <;> simp only [step] at hstep
  case resume t sig => exact ⟨t,resume_cases hstep⟩
  case request t s =>
    split_ifs at hstep with h
    cases hstep
    exact ⟨t,.request h⟩
  case containerStart t =>
    split_ifs at hstep with h
    cases hstep
    exact ⟨t,.started h.1 h.2⟩
  case containerExit t =>
    split_ifs at hstep with h
    cases hstep
    exact ⟨t,.ended h⟩
  case clientExit t =>
    split_ifs at hstep with h
    cases hstep
    exact ⟨t,.exited h.1 h.2⟩
  case clientDeath t =>
    split_ifs at hstep with h
    cases hstep
    exact ⟨t,.died h⟩

/-- What holds of locks, slots and containers in every reachable state. -/
structure Sound (maxConcurrent : ℕ) (m : Executions) : Prop where
  locks : ∀ t s, m.lock s = some t ↔
    (m.exec t).pc.holdsLock = true ∧ (m.exec t).session = s
  slots : Permits maxConcurrent m.semaphore fun t => (m.exec t).pc.holdsSlot = true
  tended : ∀ t, (m.exec t).Tended

theorem sound_init (maxConcurrent : ℕ) : Sound maxConcurrent (init maxConcurrent) where
  locks t s := by simp [init,ExecPc.holdsLock]
  slots := .full _ fun t => by simp [init,ExecPc.holdsSlot]
  tended t := by constructor <;> simp [init]

section Sound
variable {maxConcurrent : ℕ} {x : Execution} {sig : Signal}

/-- A step of one request or of its container that moves no lock and no slot. -/
theorem Sound.set (h : Sound maxConcurrent m)
    (hlock : x.pc.holdsLock = (m.exec t).pc.holdsLock)
    (hslot : x.pc.holdsSlot = (m.exec t).pc.holdsSlot)
    (hsession : x.pc.holdsLock = true → x.session = (m.exec t).session)
    (hx : (m.exec t).Tended → x.Tended) : Sound maxConcurrent (m.set t x) where
  locks t' s := by
    have ht := h.locks t' s
    rw [set_exec]
    split_ifs with he
    · subst he
      change m.lock s = some t' ↔ _
      rw [ht,← hlock]
      exact and_congr_right fun hl => by rw [hsession hl]
    · exact ht
  slots := h.slots.mono fun t' ht => by
    rw [set_exec] at ht
    split_ifs at ht with he
    · rwa [he,← hslot]
    · exact ht
  tended t' := by
    rw [set_exec]
    split_ifs
    · exact hx (h.tended t)
    · exact h.tended t'

@[simp] theorem setLock_lock (m : Executions) (s r : Ref) (owner : Option TaskId) :
    (m.setLock s owner).lock r = if r = s then owner else m.lock r := by
  simp [setLock,Function.update_apply]

@[simp] theorem unlock_exec (m : Executions) (t t' : TaskId) :
    (m.unlock t).exec t' = if t' = t then { m.exec t with pc := .done } else m.exec t' :=
  set_exec m t t' _

theorem unlock_lock (m : Executions) (t : TaskId) (s : Ref) :
    (m.unlock t).lock s = if s = (m.exec t).session then none else m.lock s :=
  setLock_lock _ _ _ _

/-- A lock that is given back is free, the others are as before. -/
theorem Sound.locks_unlock (h : Sound maxConcurrent m) (hlock : (m.exec t).pc.holdsLock = true)
    (t' : TaskId) (s : Ref) : (m.unlock t).lock s = some t' ↔
      ((m.unlock t).exec t').pc.holdsLock = true ∧ ((m.unlock t).exec t').session = s := by
  have hown := (h.locks t (m.exec t).session).mpr ⟨hlock,rfl⟩
  rw [unlock_lock,unlock_exec]
  by_cases ht : t' = t
  · subst ht
    have hs : m.lock s = some t' → s = (m.exec t').session := fun hs => ((h.locks t' s).mp hs).2.symm
    simp only [if_true,ExecPc.holdsLock,Bool.false_eq_true,false_and,iff_false]
    split_ifs with he
    · simp
    · exact fun h => he (hs h)
  · rw [if_neg ht,← h.locks t' s]
    split_ifs with he
    · rw [he,hown]
      simpa using Ne.symm ht
    · rfl

theorem Sound.tended_unlock (h : Sound maxConcurrent m) (t t' : TaskId) :
    ((m.unlock t).exec t').Tended := by
  rw [unlock_exec]
  split_ifs
  · exact (h.tended t).done
  · exact h.tended t'

theorem Sound.unlock (h : Sound maxConcurrent m) (hlock : (m.exec t).pc.holdsLock = true) :
    Sound maxConcurrent (m.unlock t) where
  locks := h.locks_unlock hlock
  slots := h.slots.mono fun t' ht => by
    rw [unlock_exec] at ht
    split_ifs at ht
    · cases ht
    · exact ht
  tended := h.tended_unlock t

theorem Sound.leave (h : Sound maxConcurrent m) (hlock : (m.exec t).pc.holdsLock = true)
    (hslot : (m.exec t).pc.holdsSlot = true) : Sound maxConcurrent (m.leave t) where
  locks := h.locks_unlock hlock
  slots := h.slots.release hslot fun t' ht => by
    change ((m.unlock t).exec t').pc.holdsSlot = true at ht
    rw [unlock_exec] at ht
    split_ifs at ht with he
    · cases ht
    · exact ⟨ht,he⟩
  tended := h.tended_unlock t

/-- A free lock is taken. -/
theorem Sound.lock (h : Sound maxConcurrent m) (hpc : (m.exec t).pc = .acquireLock)
    (hfree : m.lock (m.exec t).session = none) :
    Sound maxConcurrent ((m.setPc t .commit).setLock (m.exec t).session (some t)) where
  locks t' s := by
    have hexec : ((m.setPc t .commit).setLock (m.exec t).session (some t)).exec t' =
        if t' = t then { m.exec t with pc := .commit } else m.exec t' := set_exec m t t' _
    have hfree' := h.locks t' (m.exec t).session
    rw [hfree] at hfree'
    rw [setLock_lock,hexec]
    by_cases ht : t' = t
    · subst ht
      have hold := h.locks t' s
      rw [hpc] at hold
      simp only [if_true,ExecPc.holdsLock,true_and]
      split_ifs with he
      · simp [he]
      · exact iff_of_false (fun hs => absurd (hold.mp hs).1 (by simp [ExecPc.holdsLock]))
          fun hs => he hs.symm
    · rw [if_neg ht]
      split_ifs with he
      · rw [he,← hfree']
        simpa using Ne.symm ht
      · exact h.locks t' s
  slots := h.slots.mono fun t' ht => by
    change ((m.setPc t .commit).exec t').pc.holdsSlot = true at ht
    rw [setPc,set_exec] at ht
    split_ifs at ht
    · cases ht
    · exact ht
  tended t' := by
    change ((m.setPc t .commit).exec t').Tended
    rw [setPc,set_exec]
    split_ifs
    · obtain ⟨hearly,_,_,_,hunasked,hexited,hremoved⟩ := h.tended t
      constructor <;> simp_all [ExecPc.holdsSlot]
    · exact h.tended t'

/-- A free slot is taken. -/
theorem Sound.slot (h : Sound maxConcurrent m) {n : ℕ} (hpc : (m.exec t).pc = .acquireSlot)
    (hfree : m.semaphore = n+1) :
    Sound maxConcurrent { m.setPc t .snapshot with semaphore := n } where
  locks t' s := by
    have ht := h.locks t' s
    change m.lock s = some t' ↔ ((m.setPc t .snapshot).exec t').pc.holdsLock = true ∧
      ((m.setPc t .snapshot).exec t').session = s
    rw [setPc,set_exec,ht]
    split_ifs with he
    · rw [he,hpc]
      rfl
    · rfl
  slots := by
    have hslots := h.slots
    rw [hfree] at hslots
    refine hslots.acquire (i := t) fun t' ht => ?_
    change ((m.setPc t .snapshot).exec t').pc.holdsSlot = true at ht
    rw [setPc,set_exec] at ht
    split_ifs at ht with he
    · exact .inr he
    · exact .inl ht
  tended t' := by
    change ((m.setPc t .snapshot).exec t').Tended
    rw [setPc,set_exec]
    split_ifs
    · obtain ⟨hearly,_,_,_,hunasked,hexited,hremoved⟩ := h.tended t
      constructor <;> simp_all [ExecPc.holdsSlot]
    · exact h.tended t'

theorem Leaves.holdsSlot (leaves : Leaves m t sig) : (m.exec t).pc.holdsSlot = true := by
  cases leaves <;> simp_all [ExecPc.holdsSlot]

theorem Leaves.holdsLock (leaves : Leaves m t sig) : (m.exec t).pc.holdsLock = true := by
  cases leaves <;> simp_all [ExecPc.holdsLock]

theorem Sound.step (h : Sound maxConcurrent m) (hstep : m.step e = some m') :
    Sound maxConcurrent m' := by
  obtain ⟨t,steps⟩ := step_cases hstep
  have ht := h.tended t
  have hmove {x : Execution} (pc : (m.exec t).pc.holdsLock = x.pc.holdsLock ∧
      (m.exec t).pc.holdsSlot = x.pc.holdsSlot) (hs : x.session = (m.exec t).session)
      (hx : x.Tended) : Sound maxConcurrent (m.set t x) :=
    h.set pc.1.symm pc.2.symm (fun _ => hs) fun _ => hx
  obtain ⟨hearly,hstarting,hwaiting,hending,hunasked,hexited,hremoved⟩ := id ht
  cases steps with
  | request pc =>
    refine h.set ?_ ?_ ?_ fun _ => ?_
    · simp [pc,ExecPc.holdsLock]
    · simp [pc,ExecPc.holdsSlot]
    · simp [ExecPc.holdsLock]
    · constructor <;> simp
  | locked pc free => exact h.lock pc free
  | refused pc => exact hmove (by simp [pc,ExecPc.holdsLock,ExecPc.holdsSlot]) rfl ht.done
  | unlocked pc =>
    have hlock : (m.exec t).pc.holdsLock = true := by
      rcases pc with pc | pc <;> simp [pc,ExecPc.holdsLock]
    exact h.unlock hlock
  | slotted pc free => exact h.slot pc free
  | committed pc => exact hmove (by simp [pc,ExecPc.holdsLock,ExecPc.holdsSlot]) rfl (ht.committed pc)
  | stamped pc => exact hmove (by simp [pc,ExecPc.holdsLock,ExecPc.holdsSlot]) rfl (ht.stamped pc)
  | spawned pc => exact hmove (by simp [pc,ExecPc.holdsLock,ExecPc.holdsSlot]) rfl (ht.spawned pc)
  | unspawned pc =>
    exact hmove (by simp [pc,ExecPc.holdsLock,ExecPc.holdsSlot]) rfl (ht.unspawned pc _)
  | overdue pc _ => exact hmove (by simp [pc,ExecPc.holdsLock,ExecPc.holdsSlot]) rfl (ht.overdue pc _)
  | waited pc client =>
    exact hmove (by simp [pc,ExecPc.holdsLock,ExecPc.holdsSlot]) rfl (ht.waited pc client _)
  | reaped pc _ =>
    exact hmove (by simp [pc,ExecPc.holdsLock,ExecPc.holdsSlot]) rfl
      (ht.after (ht.ending (.inl ⟨_,pc⟩)) (.inl ⟨_,rfl⟩))
  | read pc =>
    exact hmove (by simp [pc,ExecPc.holdsLock,ExecPc.holdsSlot]) rfl
      (ht.after (ht.ending (.inr (.inl ⟨_,pc⟩))) (.inr rfl))
  | removed pc => exact hmove (by simp [pc,ExecPc.holdsLock,ExecPc.holdsSlot]) rfl (ht.removal pc)
  | unremoved pc =>
    exact hmove (by simp [pc,ExecPc.holdsLock,ExecPc.holdsSlot]) rfl (ht.unremoval pc)
  | leaves leaves => exact h.leave leaves.holdsLock leaves.holdsSlot
  | started pending client =>
    refine h.set rfl rfl (fun _ => rfl) fun _ => ⟨hearly,hstarting,hwaiting,?_,?_,?_,?_⟩
    · intro pc
      exact absurd client (hending pc).1
    · intro hclient
      exact absurd (client.symm.trans hclient) (by simp)
    · intro hclient
      exact absurd (client.symm.trans hclient) (by simp)
    · intro hr
      exact absurd (pending.symm.trans (hremoved hr)) (by simp)
  | ended running =>
    refine h.set rfl rfl (fun _ => rfl) fun _ => ⟨hearly,hstarting,hwaiting,?_,?_,?_,?_⟩
    · exact fun pc => ⟨(hending pc).1,by simp⟩
    · intro hclient
      exact absurd (running.symm.trans (hunasked hclient)) (by simp)
    · exact fun _ => rfl
    · exact fun _ => rfl
  | exited client container | died client =>
    have hnone : (m.exec t).client ≠ .none := by simp [client]
    refine h.set rfl rfl (fun _ => rfl) fun _ => ⟨?_,?_,?_,?_,?_,?_,?_⟩
    · exact fun hslot hdone => absurd (hearly hslot hdone).1 hnone
    · exact fun pc => absurd (hstarting pc).1 hnone
    · exact fun pc => ⟨by simp,(hwaiting pc).2⟩
    · exact fun pc => absurd client (hending pc).1
    all_goals simp_all

end Sound

/-- Every running container has its slot. -/
def Kept (m : Executions) : Prop := ∀ t, m.Runs t → (m.exec t).pc.holdsSlot = true

section Kept
variable {maxConcurrent : ℕ} {sig : Signal}

theorem Steps.frame (steps : Steps m t e m') {t' : TaskId} (ht : t' ≠ t) :
    m'.exec t' = m.exec t' := by
  cases steps <;> simp [setPc,setLock,leave,ht]

/-- A request that leaves without abandoning its container leaves none behind. -/
theorem Leaves.not_runs (leaves : Leaves m t sig) (h : (m.exec t).Tended)
    (hg : m.abandons (.resume t sig) = false) : ¬m.Runs t := by
  intro hruns
  change (m.exec t).container = .running at hruns
  cases leaves with
  | snapshot pc hsig =>
    have hnone := h.unasked (h.starting (.inl pc)).1
    exact absurd (hruns.symm.trans hnone) (by simp)
  | removal pc => simp [abandons,pc,hruns] at hg
  | reap pc =>
    have hun := (h.ending (.inl ⟨_,pc⟩)).2 hruns
    simp [abandons,pc,hruns,hun] at hg
  | output pc hsig =>
    have hun := (h.ending (.inr (.inl ⟨_,pc⟩))).2 hruns
    simp [abandons,pc,hruns,hun] at hg
    exact hsig hg
  | collected pc =>
    have hun := (h.ending (.inr (.inr pc))).2 hruns
    simp [abandons,pc,hruns,hun] at hg

theorem Steps.kept (steps : Steps m t e m') (h : (m.exec t).Tended) (hk : m.Kept)
    (hg : m.abandons e = false) (hruns : m'.Runs t) : (m'.exec t).pc.holdsSlot = true := by
  have hslot := hk t
  unfold Runs at hslot hruns
  cases steps with
  | request pc => simp at hruns
  | leaves leaves =>
    have hr : m.Runs t := by simpa [leave,Runs] using hruns
    exact absurd hr (leaves.not_runs h hg)
  | started pending client =>
    have hpc : (m.exec t).pc ≠ .done := by simpa [abandons] using hg
    by_contra hfalse
    have hearly := h.early (by simpa using hfalse) hpc
    exact absurd (client.symm.trans hearly.1) (by simp)
  | locked pc | refused pc | committed pc | slotted pc =>
    simp_all [setPc,setLock,ExecPc.holdsSlot]
  | unlocked pc => rcases pc with pc | pc <;> simp_all [ExecPc.holdsSlot]
  | stamped | spawned | unspawned | waited | overdue | removed | unremoved | reaped | read =>
    simp [setPc,ExecPc.holdsSlot]
  | ended running => simp at hruns
  | exited client container => simp at hruns
  | died client => simp_all

/-- The steps that keep every running container within its slot are the ones that abandon none. -/
theorem Sound.kept (h : Sound maxConcurrent m) (hk : m.Kept) (hg : m.abandons e = false)
    (hstep : m.step e = some m') : m'.Kept := by
  intro t' hruns
  obtain ⟨t,steps⟩ := step_cases hstep
  by_cases ht : t' = t
  · subst ht
    exact steps.kept (h.tended t') hk hg hruns
  · unfold Runs at hruns
    rw [steps.frame ht] at hruns ⊢
    exact hk t' hruns

end Kept

end Executions
end CodeExecutorApi
