import CodeExecutorApi.Executor.Output
import CodeExecutorApi.Routes.Execute
import CodeExecutorApi.Sessions.Manager

/-! `run_container` from await to await, beside the worker thread that drains its pty, the process
`podman run` and the container: who closes the pty, and what the result says. -/
namespace CodeExecutorApi
open Python Posix Machine

/-- The await `run_container` is suspended at. `raising` says that an exception is on its way out;
the three that begin with `remove` are those of `_remove_container`. -/
inductive RunPc
  | idle
  | spawn
  | wait
  | removeSpawn (raising : Bool)
  | removeWait (raising : Bool)
  | removeReap (raising : Bool)
  | reap (raising : Bool)
  | readOutput (raising : Bool)
  | raised
  | returned (result : ExecutionResult)
  deriving DecidableEq, Repr

namespace RunPc

def isOver : RunPc → Bool
  | .raised | .returned _ => true
  | _ => false

/-- Past `evt.set()`, or not yet. -/
def stopping : RunPc → Bool
  | .readOutput _ => true
  | _ => false

end RunPc

/-- The task that runs `read_max_and_close` in a worker thread. A task that is cancelled before its
thread has begun never runs it. -/
inductive ReadTask
  | none
  | scheduled
  | started
  | dropped
  deriving DecidableEq, Repr

/-- A step of the thread. -/
def TerminalEvent.ofThread : TerminalEvent → Bool
  | .select | .stopTest | .read _ => true
  | .write _ | .exit | .set => false

/-- `process` holds the return code of `podman run` once it has exited. -/
structure ContainerRun where
  pc : RunPc
  pty : Option Terminal
  readTask : ReadTask
  process : Option (Option ℤ)
  returnCode : ℤ
  timedOut : Bool
  deriving DecidableEq, Repr

inductive RunEvent
  | call (sig : Signal)
  | resume (sig : Signal)
  | processExit (status : ℤ)
  | threadStart
  | terminal (e : TerminalEvent)
  deriving DecidableEq, Repr

def RunEvent.ofThread : RunEvent → Bool
  | .terminal e => e.ofThread
  | _ => false

namespace ContainerRun

def init : ContainerRun := ⟨.idle,none,.none,none,-1,false⟩

section Step
variable (m : ContainerRun)

def setPc (pc : RunPc) : ContainerRun := { m with pc := pc }

/-- `evt.set()`, and what follows it: without a task to read the output, both ends are closed here. -/
def finish (raising : Bool) : ContainerRun :=
  if m.readTask = .none then { m with pty := m.pty.map (·.close .select), pc := .raised }
  else
    { m with pty := m.pty.map fun t => { t with stopEvt := true }, pc := .readOutput raising }

/-- The `finally` after a wait that ended. -/
def afterWait (raising : Bool) : ContainerRun :=
  if m.process = some none then m.setPc (.removeSpawn raising) else m.finish raising

def result (output : Bytes) : ExecutionResult := ⟨trimRight (fsdecode output),m.returnCode,m.timedOut⟩

/-- The await of the read task ends with what the thread returned, or with what it raised. -/
def afterRead (raising : Bool) : Option ContainerRun :=
  match m.pty.map Terminal.pc with
  | some (.finished output) =>
    some (m.setPc (if raising then .raised else .returned (m.result output)))
  | some (.failed _) => some (m.setPc .raised)
  | _ => none

def resume (sig : Signal) : Option ContainerRun :=
  match m.pc with
  | .idle | .raised | .returned _ => none
  | .spawn =>
    some (if sig = .ok then { m with pc := .wait, process := some none } else m.finish true)
  | .wait =>
    match sig with
    | .ok => m.process.join.map fun status => { m with returnCode := status }.afterWait false
    | .timeout => some ({ m with timedOut := true }.afterWait false)
    | .cancelled => some (m.afterWait true)
    | _ => none
  | .removeSpawn raising =>
    match sig with
    | .ok => some (m.setPc (.removeWait raising))
    | .osError => some (m.setPc (.reap raising))
    | .exception | .cancelled => some (m.setPc .raised)
    | .timeout => none
  | .removeWait raising =>
    match sig with
    | .ok => some (m.setPc (.reap raising))
    | .timeout => some (m.setPc (.removeReap raising))
    -- `process.kill()` of a `podman rm` that has just exited raises
    | .exception | .cancelled => some (m.setPc .raised)
    | .osError => none
  | .removeReap raising =>
    match sig with
    | .ok => some (m.setPc (.reap raising))
    | .cancelled => some (m.setPc .raised)
    | _ => none
  | .reap raising =>
    match sig with
    | .ok => if m.process = some none then none else some (m.finish raising)
    | .timeout => some (m.finish raising)
    | .cancelled => some (m.setPc .raised)
    | _ => none
  | .readOutput raising =>
    match sig with
    | .ok => m.afterRead raising
    | .cancelled =>
      some { m with
        pc := .raised
        readTask := if m.readTask = .scheduled then .dropped else m.readTask }
    | _ => none

/-- The container writes once podman was started, and the thread runs once it has begun. -/
def allows : TerminalEvent → Bool
  | .write _ | .exit => m.process.isSome
  | .set => false
  | .select | .stopTest | .read _ => m.readTask = .started

/-- Neither end of the pty is closed. `read_max_and_close` closes both in its `finally`. -/
def ptyOpen : Bool := m.pty.any (·.slaveOpen)

/-- How much the container has written. -/
def written : ℕ := (m.pty.map (·.written.length)).getD 0

/-- How much of that the thread has not read. -/
def pending : ℕ := (m.pty.map (·.queued.length)).getD 0

/-- How many steps the thread has left once it was told to stop. -/
def left : ℕ := (m.pty.map Terminal.left).getD 0

/-- An exception at an await of the `finally` that comes before `evt.set()`, or the cancellation of
the read task before its thread has begun. -/
def forsakes : RunEvent → Bool
  | .resume sig =>
    match m.pc with
    | .removeSpawn _ | .removeWait _ => sig = .exception ∨ sig = .cancelled
    | .removeReap _ | .reap _ => sig = .cancelled
    | .readOutput _ => sig = .cancelled ∧ m.readTask = .scheduled
    | _ => false
  | _ => false

end Step

def step (maxSize : ℕ) (m : ContainerRun) : RunEvent → Option ContainerRun
  | .call sig =>
    if m.pc = .idle then
      match sig with
      | .ok => some { m with pc := .spawn, pty := some .opened, readTask := .scheduled }
      | .osError => some (m.finish true)
      | _ => none
    else none
  | .resume sig => m.resume sig
  | .processExit status =>
    if m.process = some none then some { m with process := some (some status) } else none
  | .threadStart =>
    if m.readTask = .scheduled then some { m with readTask := .started } else none
  | .terminal e =>
    if m.allows e then (m.pty.bind fun t => t.step maxSize e).map fun t => { m with pty := some t }
    else none

end ContainerRun

namespace RunPc

/-- The awaits between `podman run` that is still alive and `evt.set()`. -/
def removing : RunPc → Option Bool
  | .removeSpawn r | .removeWait r | .removeReap r | .reap r => some r
  | _ => none

theorem over_of_removing {pc : RunPc} {r : Bool} (h : pc.removing = some r) :
    pc ≠ .idle ∧ pc.isOver = false ∧ pc.stopping = false := by
  cases pc <;> simp [removing,isOver,stopping] at h ⊢

end RunPc

namespace Terminal
variable {maxSize : ℕ} {t t' : Terminal} {e : TerminalEvent}

/-- The terminal as its reader knows it, which never asks whether the container is gone. -/
def seen (t : Terminal) : Terminal := { t with exited := true }

theorem afterRead_seen (r : Except Errno Bytes) :
    t.seen.afterRead maxSize r = (t.afterRead maxSize r).seen := by
  cases r with
  | error e =>
    simp only [afterRead]
    split_ifs <;> rfl
  | ok chunk =>
    by_cases hchunk : chunk = []
    · simp only [afterRead,if_pos hchunk]
      rfl
    · rw [afterRead_chunk hchunk,afterRead_chunk hchunk]
      rfl

/-- A step of the thread is the same whether the container is gone or not, as the thread itself holds
the slave end. -/
theorem seen_step (ht : Draining maxSize t.seen) (he : e.ofThread = true)
    (hstep : t.step maxSize e = some t') : t.seen.step maxSize e = some t'.seen := by
  have hhung {pc : ReaderPc} (hpc : t.pc = pc) (hne : ∀ out, pc ≠ .finished out) :
      t.hungUp = false ∧ t.seen.hungUp = false := by
    have hslave : t.slaveOpen = true := ht.slave fun out h => hne out (hpc.symm.trans h)
    simp [hungUp,seen,hslave]
  cases e with
  | write | exit | set => cases he
  | select =>
    by_cases hpc : t.pc = .select
    · obtain ⟨hno,hno'⟩ := hhung hpc (by simp)
      have hpc' : t.seen.pc = .select := hpc
      simp only [step,if_pos hpc,hno] at hstep
      cases hstep
      simp only [step,if_pos hpc',hno']
      rfl
    · simp only [step,if_neg hpc,reduceCtorEq] at hstep
  | stopTest =>
    by_cases hpc : t.pc = .stopTest
    · have hpc' : t.seen.pc = .stopTest := hpc
      have hevt : t.seen.stopEvt = t.stopEvt := rfl
      simp only [step,if_pos hpc] at hstep
      simp only [step,if_pos hpc',hevt]
      split_ifs at hstep ⊢
      all_goals
        cases hstep
        rfl
    · simp only [step,if_neg hpc,reduceCtorEq] at hstep
  | read n =>
    by_cases hpc : t.pc = .read
    · obtain ⟨hno,hno'⟩ := hhung hpc (by simp)
      have hpc' : t.seen.pc = .read := hpc
      have hread : t.seen.osRead n = t.osRead n := by
        unfold osRead
        rw [hno,hno']
        rfl
      simp only [step,if_pos hpc] at hstep
      obtain ⟨r,hr,rfl⟩ := Option.map_eq_some_iff.mp hstep
      simp only [step,if_pos hpc',hread,hr,Option.map_some,afterRead_seen]
    · simp only [step,if_neg hpc,reduceCtorEq] at hstep

/-- A terminal whose reader drains it, and has closed it if it has finished. -/
structure Attended (maxSize : ℕ) (t : Terminal) : Prop where
  drains : Draining maxSize t.seen
  closed : ∀ out, t.pc = .finished out → t.slaveOpen = false

theorem attended_opened (maxSize : ℕ) : Attended maxSize opened where
  drains := (draining_opened maxSize).next (show opened.step maxSize .exit = some opened.seen from rfl)
  closed := by simp [opened]

theorem Attended.set (ht : Attended maxSize t) : Attended maxSize { t with stopEvt := true } where
  drains := ⟨ht.drains.output,ht.drains.reading,ht.drains.slave,fun _ => rfl,
    fun out h => ⟨(ht.drains.finished out h).1,rfl⟩,ht.drains.failed⟩
  closed := ht.closed

/-- What a step of the thread or of the container does to the pty. Only the thread closes it, and
only once the event is set; from then on its steps are numbered. -/
structure Turn (maxSize : ℕ) (t : Terminal) (e : TerminalEvent) (t' : Terminal) : Prop where
  attended : Attended maxSize t'
  evt : t'.stopEvt = t.stopEvt
  stays : e.ofThread = false → t'.pc = t.pc ∧ t'.slaveOpen = t.slaveOpen
  written : e.ofThread = true → t'.written = t.written
  shut : t.slaveOpen = false → t'.slaveOpen = false
  closes : t.slaveOpen = true → t'.slaveOpen = false → t.stopEvt = true
  left : t.stopEvt = true →
    t'.left + e.ofThread.toNat + 2 * t.written.length ≤ t.left + 2 * t'.written.length

theorem Attended.turn (ht : Attended maxSize t) (he : e ≠ .set) (hstep : t.step maxSize e = some t') :
    Turn maxSize t e t' := by
  have hthread (he : e.ofThread = true) : Turn maxSize t e t' := by
    have hseen := seen_step ht.drains he hstep
    have hdrains := ht.drains.next hseen
    have hleft (hevt : t.stopEvt = true) : t'.left + 1 ≤ t.left :=
      (left_step ht.drains hevt hseen).2
    have hsteps (u : Terminal) (hu : Steps maxSize t.seen e u) : u.stopEvt = t.stopEvt ∧
        u.written = t.written ∧ (t.slaveOpen = false → u.slaveOpen = false) ∧
        (t.slaveOpen = true → u.slaveOpen = false → t.stopEvt = true) ∧
        ∀ out, u.pc = .finished out → u.slaveOpen = false := by
      cases hu with
      | write | exit | set => cases he
      | stops pc gone => exact ⟨rfl,rfl,fun _ => rfl,fun _ _ => gone,fun _ _ => rfl⟩
      | ready | timeout | goesOn | reads =>
        exact ⟨rfl,rfl,fun h => h,fun ho hc => absurd (ho.symm.trans hc) (by simp),by simp⟩
    obtain ⟨hevt,hwritten,hshut,hcloses,hclosed⟩ := hsteps _ (step_cases ht.drains hseen)
    have hwritten : t'.written = t.written := hwritten
    refine ⟨⟨hdrains,hclosed⟩,hevt,fun hno => ?_,fun _ => hwritten,hshut,hcloses,fun hset => ?_⟩
    · rw [he] at hno
      cases hno
    · rw [he,hwritten,Bool.toNat_true]
      have := hleft hset
      omega
  cases e with
  | write bytes =>
    simp only [step] at hstep
    split_ifs at hstep
    cases hstep
    obtain ⟨consumed,hwritten,houtput⟩ := ht.drains.output
    refine ⟨⟨⟨⟨consumed,?_,houtput⟩,fun h => ?_,ht.drains.slave,fun _ => rfl,ht.drains.finished,
      ht.drains.failed⟩,ht.closed⟩,rfl,fun _ => ⟨rfl,rfl⟩,?_,fun h => h,?_,fun _ => ?_⟩
    · change t.written ++ bytes = consumed ++ (t.queued ++ bytes)
      rw [← List.append_assoc]
      exact congrArg (· ++ bytes) hwritten
    · exact List.append_ne_nil_of_left_ne_nil (ht.drains.reading h) _
    · exact fun h => by cases h
    · exact fun ho hc => absurd (ho.symm.trans hc) (by simp)
    · simp only [Terminal.left,List.length_append,TerminalEvent.ofThread,Bool.toNat_false]
      omega
  | exit =>
    simp only [step] at hstep
    split_ifs at hstep
    cases hstep
    exact ⟨⟨ht.drains,ht.closed⟩,rfl,fun _ => ⟨rfl,rfl⟩,fun h => (by cases h),fun h => h,
      fun ho hc => absurd (ho.symm.trans hc) (by simp),fun _ => le_rfl⟩
  | set => exact absurd rfl he
  | select | stopTest | read => exact hthread rfl

/-- The thread never waits for long: while the pty is open it can take a step. -/
theorem Attended.enabled (ht : Attended maxSize t) (hopen : t.slaveOpen = true) :
    ∃ e t', e.ofThread = true ∧ t.step maxSize e = some t' := by
  cases hpc : t.pc with
  | finished out =>
    rw [ht.closed out hpc] at hopen
    cases hopen
  | failed errno => exact absurd hpc (ht.drains.failed errno)
  | select => exact ⟨.select,_,rfl,by rw [step,if_pos hpc]⟩
  | stopTest =>
    refine ⟨.stopTest,?_⟩
    simp only [step,if_pos hpc]
    split_ifs
    · exact ⟨_,rfl,rfl⟩
    · exact ⟨_,rfl,rfl⟩
  | read =>
    have hne : t.queued ≠ [] := ht.drains.reading hpc
    have hpos := List.length_pos_of_ne_nil hne
    have hread : t.osRead 1 = some (.ok (t.queued.take 1)) := by
      rw [osRead,if_pos hne,if_pos (by omega)]
    exact ⟨.read 1,_,rfl,by rw [step,if_pos hpc,hread,Option.map_some]⟩

end Terminal

namespace ContainerRun
variable {maxSize : ℕ} {m m' : ContainerRun} {e : RunEvent}

/-- What a step can do. -/
inductive Steps (maxSize : ℕ) (m : ContainerRun) : RunEvent → ContainerRun → Prop
  | called (pc : m.pc = .idle) : Steps maxSize m (.call .ok)
      { m with pc := .spawn, pty := some .opened, readTask := .scheduled }
  | uncalled (pc : m.pc = .idle) : Steps maxSize m (.call .osError) (m.finish true)
  | spawned (pc : m.pc = .spawn) :
      Steps maxSize m (.resume .ok) { m with pc := .wait, process := some none }
  | unspawned {sig} (pc : m.pc = .spawn) : Steps maxSize m (.resume sig) (m.finish true)
  | exited {status} (pc : m.pc = .wait) (process : m.process = some (some status)) :
      Steps maxSize m (.resume .ok) ({ m with returnCode := status }.finish false)
  | overdue (pc : m.pc = .wait) (alive : m.process = some none) : Steps maxSize m (.resume .timeout)
      { m with timedOut := true, pc := .removeSpawn false }
  | late (pc : m.pc = .wait) (gone : m.process ≠ some none) :
      Steps maxSize m (.resume .timeout) ({ m with timedOut := true }.finish false)
  | interrupted (pc : m.pc = .wait) (alive : m.process = some none) :
      Steps maxSize m (.resume .cancelled) (m.setPc (.removeSpawn true))
  | cancelled (pc : m.pc = .wait) (gone : m.process ≠ some none) :
      Steps maxSize m (.resume .cancelled) (m.finish true)
  | removes {sig r pc'} (pc : m.pc.removing = some r) (goes : m.forsakes (.resume sig) = false)
      (next : pc'.removing = some r) (early : m.pc ≠ .reap r) :
      Steps maxSize m (.resume sig) (m.setPc pc')
  | stops {sig r} (pc : m.pc.removing = some r) (goes : m.forsakes (.resume sig) = false)
      (last : m.pc = .reap r) : Steps maxSize m (.resume sig) (m.finish r)
  | forsaken {sig r} (pc : m.pc.removing = some r) (ends : m.forsakes (.resume sig) = true) :
      Steps maxSize m (.resume sig) (m.setPc .raised)
  | read {r t output} (pc : m.pc = .readOutput r) (pty : m.pty = some t)
      (finished : t.pc = .finished output) : Steps maxSize m (.resume .ok)
        (m.setPc (if r then .raised else .returned (m.result output)))
  | unread {r t errno} (pc : m.pc = .readOutput r) (pty : m.pty = some t)
      (failed : t.pc = .failed errno) : Steps maxSize m (.resume .ok) (m.setPc .raised)
  | dropped {r} (pc : m.pc = .readOutput r) : Steps maxSize m (.resume .cancelled)
      { m with
        pc := .raised
        readTask := if m.readTask = .scheduled then .dropped else m.readTask }
  | exits {status} (alive : m.process = some none) :
      Steps maxSize m (.processExit status) { m with process := some (some status) }
  | starts (task : m.readTask = .scheduled) :
      Steps maxSize m .threadStart { m with readTask := .started }
  | terminal {e t t'} (allowed : m.allows e = true) (pty : m.pty = some t)
      (taken : t.step maxSize e = some t') : Steps maxSize m (.terminal e) { m with pty := some t' }

theorem resume_cases {sig : Signal} (hstep : m.resume sig = some m') :
    Steps maxSize m (.resume sig) m' := by
  unfold resume at hstep
  cases hpc : m.pc <;> simp only [hpc,reduceCtorEq] at hstep
  case spawn =>
    split_ifs at hstep with hsig <;> cases hstep
    · subst hsig
      exact .spawned hpc
    · exact .unspawned hpc
  case wait =>
    cases sig <;> simp only [reduceCtorEq] at hstep
    case ok =>
      obtain ⟨status,hstatus,rfl⟩ := Option.map_eq_some_iff.mp hstep
      have hprocess := Option.join_eq_some_iff.mp hstatus
      rw [afterWait,if_neg (by simp [hprocess])]
      exact .exited hpc hprocess
    case timeout =>
      cases hstep
      unfold afterWait
      split_ifs with halive
      · exact .overdue hpc halive
      · exact .late hpc halive
    case cancelled =>
      cases hstep
      unfold afterWait
      split_ifs with halive
      · exact .interrupted hpc halive
      · exact .cancelled hpc halive
  case removeSpawn r =>
    have hr : m.pc.removing = some r := by rw [hpc]; rfl
    cases sig <;> cases hstep
    case ok | osError => exact .removes hr (by simp [forsakes,hpc]) rfl (by simp [hpc])
    case exception | cancelled => exact .forsaken hr (by simp [forsakes,hpc])
  case removeWait r =>
    have hr : m.pc.removing = some r := by rw [hpc]; rfl
    cases sig <;> cases hstep
    case ok | timeout => exact .removes hr (by simp [forsakes,hpc]) rfl (by simp [hpc])
    case exception | cancelled => exact .forsaken hr (by simp [forsakes,hpc])
  case removeReap r =>
    have hr : m.pc.removing = some r := by rw [hpc]; rfl
    cases sig <;> cases hstep
    case ok => exact .removes hr (by simp [forsakes,hpc]) rfl (by simp [hpc])
    case cancelled => exact .forsaken hr (by simp [forsakes,hpc])
  case reap r =>
    have hr : m.pc.removing = some r := by rw [hpc]; rfl
    cases sig <;> simp only [reduceCtorEq] at hstep
    case ok =>
      split_ifs at hstep
      cases hstep
      exact .stops hr (by simp [forsakes,hpc]) hpc
    case timeout =>
      cases hstep
      exact .stops hr (by simp [forsakes,hpc]) hpc
    case cancelled =>
      cases hstep
      exact .forsaken hr (by simp [forsakes,hpc])
  case readOutput r =>
    cases sig <;> simp only [reduceCtorEq] at hstep
    case ok =>
      cases hpty : m.pty with
      | none => simp [afterRead,hpty] at hstep
      | some t =>
        cases hread : t.pc <;> simp only [afterRead,hpty,Option.map_some,hread,reduceCtorEq] at hstep
        case finished output =>
          cases hstep
          exact .read hpc hpty hread
        case failed errno =>
          cases hstep
          exact .unread hpc hpty hread
    case cancelled =>
      cases hstep
      exact .dropped hpc

theorem step_cases (hstep : m.step maxSize e = some m') : Steps maxSize m e m' := by
  cases e <;> simp only [step] at hstep
  case call sig =>
    split_ifs at hstep with hpc
    cases sig <;> cases hstep
    · exact .called hpc
    · exact .uncalled hpc
  case resume sig => exact resume_cases hstep
  case processExit status =>
    split_ifs at hstep with halive
    cases hstep
    exact .exits halive
  case threadStart =>
    split_ifs at hstep with htask
    cases hstep
    exact .starts htask
  case terminal e =>
    split_ifs at hstep with hallowed
    obtain ⟨t',ht',rfl⟩ := Option.map_eq_some_iff.mp hstep
    obtain ⟨t,hpty,htaken⟩ := Option.bind_eq_some_iff.mp ht'
    exact .terminal hallowed hpty htaken

/-- What holds of `run_container` throughout: it has a pty exactly if it has a task to drain it, the
thread works on the pty only, and the event is set on the way to the output. -/
structure Sound (maxSize : ℕ) (m : ContainerRun) : Prop where
  task : m.readTask = .none ↔ m.pty = none
  idle : m.pc = .idle → m.readTask = .none
  tended : m.pc ≠ .idle → m.pc.isOver = false → m.readTask = .scheduled ∨ m.readTask = .started
  attended : ∀ t, m.pty = some t → t.Attended maxSize
  unread : ∀ t, m.pty = some t → m.readTask ≠ .started → t.pc = .select
  evt : ∀ t, m.pty = some t → m.pc.isOver = false → t.stopEvt = m.pc.stopping

theorem sound_init (maxSize : ℕ) : Sound maxSize init where
  task := by simp [init]
  idle _ := rfl
  tended h := absurd rfl h
  attended := by simp [init]
  unread := by simp [init]
  evt := by simp [init]

/-- Nothing else of the state matters. -/
theorem Sound.of_eq (h : Sound maxSize m) (hpc : m'.pc = m.pc) (hpty : m'.pty = m.pty)
    (htask : m'.readTask = m.readTask) : Sound maxSize m' := by
  obtain ⟨task,idle,tended,attended,unread,evt⟩ := h
  constructor
  · rwa [htask,hpty]
  · rwa [hpc,htask]
  · rwa [hpc,htask]
  · rwa [hpty]
  · rwa [hpty,htask]
  · rwa [hpty,hpc]

/-- To an await on the same side of `evt.set()`, or out of `run_container`. -/
theorem Sound.setPc (h : Sound maxSize m) (pc : RunPc) (hpc : m.pc ≠ .idle) (hne : pc ≠ .idle)
    (hover : m.pc.isOver = false) (hevt : pc.isOver = false → pc.stopping = m.pc.stopping) :
    Sound maxSize (m.setPc pc) where
  task := h.task
  idle hi := absurd hi hne
  tended _ _ := h.tended hpc hover
  attended := h.attended
  unread := h.unread
  evt t ht ho := (h.evt t ht hover).trans (hevt ho).symm

theorem Sound.finish (h : Sound maxSize m) (hover : m.pc.isOver = false) (r : Bool) :
    Sound maxSize (m.finish r) := by
  unfold ContainerRun.finish
  split_ifs with htask
  · have hpty := h.task.mp htask
    rw [hpty]
    refine ⟨by simp [htask],fun _ => htask,?_,by simp,by simp,by simp⟩
    intro _ ho
    cases ho
  · have hpc : m.pc ≠ .idle := fun hi => htask (h.idle hi)
    refine ⟨?_,by simp,fun _ _ => h.tended hpc hover,?_,?_,?_⟩
    · rw [Option.map_eq_none_iff]
      exact h.task
    all_goals
      intro t ht
      obtain ⟨u,hu,rfl⟩ := Option.map_eq_some_iff.mp ht
    · exact (h.attended u hu).set
    · exact h.unread u hu
    · exact fun _ => rfl

theorem Sound.turn (h : Sound maxSize m) {e : TerminalEvent} {t t' : Terminal}
    (hallowed : m.allows e = true) (hpty : m.pty = some t) (htaken : t.step maxSize e = some t') :
    t.Turn maxSize e t' := by
  refine (h.attended t hpty).turn ?_ htaken
  rintro rfl
  cases hallowed

/-- The thread has begun if it takes a step. -/
theorem started_of_allows {e : TerminalEvent} (hallowed : m.allows e = true)
    (he : e.ofThread = true) : m.readTask = .started := by
  cases e with
  | write | exit | set => cases he
  | select | stopTest | read => simpa [allows] using hallowed

theorem Sound.terminal (h : Sound maxSize m) {e : TerminalEvent} {t t' : Terminal}
    (hallowed : m.allows e = true) (hpty : m.pty = some t) (htaken : t.step maxSize e = some t') :
    Sound maxSize { m with pty := some t' } := by
  have hturn := h.turn hallowed hpty htaken
  have hsome : m.readTask ≠ .none := by
    intro hnone
    rw [h.task.mp hnone] at hpty
    cases hpty
  refine ⟨by simpa using hsome,h.idle,h.tended,?_,?_,?_⟩
  all_goals
    rintro _ ⟨⟩
  · exact hturn.attended
  · intro hns
    have he : e.ofThread = false := by
      by_contra he
      exact hns (started_of_allows hallowed (by simpa using he))
    exact (hturn.stays he).1.trans (h.unread t hpty hns)
  · exact fun ho => hturn.evt.trans (h.evt t hpty ho)

theorem Sound.next (h : Sound maxSize m) (hstep : m.step maxSize e = some m') : Sound maxSize m' := by
  cases step_cases hstep with
  | called pc =>
    refine ⟨by simp,by simp,fun _ _ => .inl rfl,?_,?_,?_⟩
    all_goals
      rintro _ ⟨⟩
    · exact Terminal.attended_opened maxSize
    · exact fun _ => rfl
    · exact fun _ => rfl
  | uncalled pc | unspawned pc | cancelled pc => exact h.finish (by rw [pc]; rfl) true
  | spawned pc =>
    exact (h.setPc .wait (by simp [pc]) (by simp) (by simp [pc,RunPc.isOver])
      (by simp [pc,RunPc.stopping])).of_eq rfl rfl rfl
  | @exited status pc process =>
    have hset : Sound maxSize { m with returnCode := status } := h.of_eq rfl rfl rfl
    exact hset.finish (by rw [pc]; rfl) false
  | overdue pc =>
    exact (h.setPc (.removeSpawn false) (by simp [pc]) (by simp) (by simp [pc,RunPc.isOver])
      (by simp [pc,RunPc.stopping])).of_eq rfl rfl rfl
  | late pc =>
    have hset : Sound maxSize { m with timedOut := true } := h.of_eq rfl rfl rfl
    exact hset.finish (by rw [pc]; rfl) false
  | interrupted pc =>
    exact h.setPc _ (by simp [pc]) (by simp) (by simp [pc,RunPc.isOver]) (by simp [pc,RunPc.stopping])
  | removes pc _ next =>
    obtain ⟨hidle,hover,hstop⟩ := RunPc.over_of_removing pc
    obtain ⟨hidle',_,hstop'⟩ := RunPc.over_of_removing next
    exact h.setPc _ hidle hidle' hover fun _ => hstop'.trans hstop.symm
  | stops pc _ => exact h.finish (RunPc.over_of_removing pc).2.1 _
  | forsaken pc _ =>
    obtain ⟨hidle,hover,_⟩ := RunPc.over_of_removing pc
    exact h.setPc _ hidle (by simp) hover (by simp [RunPc.isOver])
  | @read r _ _ pc =>
    refine h.setPc _ (by simp [pc]) ?_ (by simp [pc,RunPc.isOver]) ?_
    all_goals
      cases r <;> simp [RunPc.isOver]
  | unread pc => exact h.setPc _ (by simp [pc]) (by simp) (by simp [pc,RunPc.isOver]) (by simp [RunPc.isOver])
  | dropped pc =>
    have htask := h.tended (by simp [pc]) (by simp [pc,RunPc.isOver])
    refine ⟨?_,by simp,by simp [RunPc.isOver],h.attended,?_,by simp [RunPc.isOver]⟩
    · have hsome : m.pty ≠ none := fun hnone => by
        rw [h.task.mpr hnone] at htask
        simp at htask
      change (if m.readTask = .scheduled then ReadTask.dropped else m.readTask) = .none ↔ _
      rcases htask with htask | htask <;> simp [htask,hsome]
    · intro t hpty hns
      refine h.unread t hpty fun hstarted => hns ?_
      simp [hstarted]
  | exits alive => exact h.of_eq rfl rfl rfl
  | starts task =>
    have hsome : m.pty ≠ none := fun hnone => by
      rw [h.task.mpr hnone] at task
      cases task
    refine ⟨by simpa using hsome,fun hi => ?_,fun _ _ => .inr rfl,h.attended,
      fun _ _ hns => absurd rfl hns,h.evt⟩
    have hnone := h.idle hi
    rw [task] at hnone
    cases hnone
  | terminal allowed pty taken => exact h.terminal allowed pty taken

theorem Sound.of_run {h : List (ContainerRun × RunEvent)} (run : Run (step maxSize) init h m) :
    Sound maxSize m := by
  induction run with
  | start => exact sound_init maxSize
  | next run taken ih => exact ih.next taken

end ContainerRun
end CodeExecutorApi
