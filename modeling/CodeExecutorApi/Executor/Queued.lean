import CodeExecutorApi.Executor.Containers
import CodeExecutorApi.Sessions.Queueing

/-! The requests that execute code, in the order in which they wait. `asyncio.Lock` and
`asyncio.Semaphore` serve those that wait for them first come, first served; the machine below this
one leaves open who is next. -/
namespace CodeExecutorApi
open Machine

/-- A queue: that of the lock of a session, or that of the execution slots. -/
inductive Line
  | lock (s : Ref)
  | slots
  deriving DecidableEq, Repr

/-- The queue that a request stands in at its await. -/
def Execution.line (x : Execution) : Option Line :=
  match x.pc with
  | .acquireLock => some (.lock x.session)
  | .acquireSlot => some .slots
  | _ => none

/-- The request that an event is about. -/
def ExecEvent.task : ExecEvent → TaskId
  | .request t _ | .resume t _ | .containerStart t | .containerExit t | .clientExit t
  | .clientDeath t => t

/-- The requests, and those that wait in each queue, the first of them in front. -/
structure QueuedExecutions where
  execs : Executions
  queue : Line → List TaskId

namespace QueuedExecutions

def init (maxConcurrent : ℕ) : QueuedExecutions := ⟨.init maxConcurrent,fun _ => []⟩

variable (q : QueuedExecutions)

/-- The queue that the request `t` stands in. -/
def line (t : TaskId) : Option Line := (q.execs.exec t).line

/-- Only the one in front gets what it waits for. -/
def turn : ExecEvent → Bool
  | .resume t .ok => (q.line t).all fun l => (q.queue l).head? = some t
  | _ => true

/-- A request that goes on leaves the queue it stands in, and joins the end of the one that it waits
in next. -/
def rejoin (t : TaskId) (m : Executions) (l : Line) : List TaskId :=
  if (m.exec t).line = q.line t then q.queue l
  else if (m.exec t).line = some l then q.queue l ++ [t]
  else (q.queue l).erase t

def step (e : ExecEvent) : Option QueuedExecutions :=
  if q.turn e then (q.execs.step e).map fun m => ⟨m,q.rejoin e.task m⟩ else none

end QueuedExecutions

namespace Executions
variable {m m' : Executions} {e : ExecEvent} {t : TaskId}

theorem Steps.task (steps : Steps m t e m') : e.task = t := by cases steps <;> rfl

/-- A request is not touched by the steps of others. -/
theorem step_frame (hstep : m.step e = some m') (ht : t ≠ e.task) : m'.exec t = m.exec t := by
  obtain ⟨u,steps⟩ := step_cases hstep
  exact steps.frame fun he => ht (he.trans steps.task.symm)

end Executions

theorem Execution.line_of_holdsSlot {x : Execution} (h : x.pc.holdsSlot = true) : x.line = none := by
  unfold line
  cases hpc : x.pc <;> first | rfl | (rw [hpc] at h; cases h)

theorem Execution.line_eq_lock {x : Execution} {s : Ref} :
    x.line = some (.lock s) ↔ x.pc = .acquireLock ∧ x.session = s := by
  unfold line
  cases x.pc <;> simp

theorem Execution.line_eq_slots {x : Execution} : x.line = some .slots ↔ x.pc = .acquireSlot := by
  unfold line
  cases x.pc <;> simp

namespace QueuedExecutions
variable {q q' : QueuedExecutions} {e : ExecEvent} {t : TaskId} {l : Line} {m : Executions}
  {maxConcurrent : ℕ} {h : List (QueuedExecutions × ExecEvent)}

theorem step_eq_some : q.step e = some q' ↔
    q.turn e = true ∧ ∃ m, q.execs.step e = some m ∧ q' = ⟨m,q.rejoin e.task m⟩ := by
  unfold step
  split_ifs with hturn
  · simp [hturn,eq_comm]
  · simp [hturn]

theorem step_execs (hstep : q.step e = some q') : q.execs.step e = some q'.execs := by
  obtain ⟨-,m,hm,rfl⟩ := step_eq_some.mp hstep
  exact hm

/-- The queues only choose among the runs of the requests. -/
theorem run_execs (run : Run step (init maxConcurrent) h q) : Run Executions.step
    (.init maxConcurrent) (h.map fun p => (p.1.execs,p.2)) q.execs := by
  induction run with
  | start => exact .start
  | next run taken ih => exact ih.next (step_execs taken)

/-- A step of a request that waits in no queue, before and after, is as it is without queues. -/
theorem step_inside (hstep : q.execs.step e = some m) (hline : q.line e.task = none)
    (hline' : (m.exec e.task).line = none) : q.step e = some {q with execs := m} := by
  refine step_eq_some.mpr ⟨?_,m,hstep,?_⟩
  · cases e with
    | resume t sig =>
      have hnone : q.line t = none := hline
      cases sig with
      | ok => rw [turn,hnone,Option.all_none]
      | osError | timeout | exception | cancelled => rfl
    | request | containerStart | containerExit | clientExit | clientDeath => rfl
  · have hsame : q.rejoin e.task m = q.queue := by
      funext l
      rw [rejoin,hline',hline,if_pos rfl]
    rw [hsame]

/-- Every request stands in the queue it waits in, once, and in no other. -/
def QueueSound (q : QueuedExecutions) : Prop :=
  ∀ l t, (q.queue l).count t = if q.line t = some l then 1 else 0

theorem QueueSound.mem_iff (hq : q.QueueSound) : t ∈ q.queue l ↔ q.line t = some l := by
  rw [← List.count_pos_iff,hq l t]
  split_ifs <;> simp [*]

theorem QueueSound.nodup (hq : q.QueueSound) (l : Line) : (q.queue l).Nodup := by
  refine List.nodup_iff_count_le_one.mpr fun t => ?_
  rw [hq l t]
  split_ifs <;> omega

theorem QueueSound.not_mem_ahead (hq : q.QueueSound) {ahead rest : List TaskId}
    (hqueue : q.queue l = ahead ++ t :: rest) : t ∉ ahead := by
  have hnodup := hq.nodup l
  rw [hqueue] at hnodup
  exact fun hmem => (List.disjoint_of_nodup_append hnodup) hmem List.mem_cons_self

theorem QueueSound.erase_other (hq : q.QueueSound) (hline : q.line t ≠ some l) :
    (q.queue l).erase t = q.queue l :=
  List.erase_of_not_mem fun hmem => hline (hq.mem_iff.mp hmem)

/-- A request that has waited leaves the queue that it stood in. -/
theorem rejoin_left (hline : q.line t = some l) (hnone : (m.exec t).line = none) (l' : Line) :
    q.rejoin t m l' = (q.queue l').erase t := by
  rw [rejoin,hline,hnone,if_neg (by simp),if_neg (by simp)]

theorem QueueSound.step (hq : q.QueueSound) (hstep : q.step e = some q') : q'.QueueSound := by
  obtain ⟨-,m,hm,rfl⟩ := step_eq_some.mp hstep
  intro l t
  have hold := hq l t
  change (q.rejoin e.task m l).count t = if (m.exec t).line = some l then 1 else 0
  unfold rejoin
  by_cases ht : t = e.task
  · subst ht
    split_ifs at hold ⊢ with hsame hnew hin hin <;>
      simp_all [List.count_append,List.count_erase_self]
  · have hline : (m.exec t).line = q.line t := by
      rw [line,Executions.step_frame hm ht]
    rw [hline,← hold]
    split_ifs
    · rfl
    · simp [List.count_append,Ne.symm ht]
    · exact List.count_erase_of_ne ht

theorem queueSound_of_run (run : Run step (init maxConcurrent) h q) : q.QueueSound := by
  induction run with
  | start =>
    intro l t
    simp [init,line,Executions.init,Execution.line]
  | next run taken ih => exact ih.step taken

/-- The lock of a session, as the session manager has it. -/
def lockOf (q : QueuedExecutions) (s : Ref) : Lock := ⟨q.execs.lock s,q.queue (.lock s)⟩

theorem moves_rejoin (q : QueuedExecutions) (t : TaskId) (m : Executions) (l : Line)
    (owner : Option TaskId) : Lock.Moves t ⟨owner,q.queue l⟩ ⟨owner,q.rejoin t m l⟩ := by
  unfold rejoin
  split_ifs
  · exact .refl
  · exact Lock.Moves.refl.enqueue
  · exact Lock.Moves.refl.dequeue

/-- The requests that execute code treat the lock of a session as the tasks of the session manager
do. -/
theorem lock_moves (hstep : q.step e = some q') (s : Ref) :
    Lock.Moves e.task (q.lockOf s) (q'.lockOf s) := by
  obtain ⟨hturn,m,hm,rfl⟩ := step_eq_some.mp hstep
  obtain ⟨t,steps⟩ := Executions.step_cases hm
  have hkept (hlock : m.lock s = q.execs.lock s) :
      Lock.Moves e.task (q.lockOf s) (lockOf ⟨m,q.rejoin e.task m⟩ s) := by
    unfold lockOf
    rw [hlock]
    exact moves_rejoin q e.task m (.lock s) _
  have hunlock (hlock : m.lock s = (q.execs.unlock t).lock s) :
      Lock.Moves e.task (q.lockOf s) (lockOf ⟨m,q.rejoin e.task m⟩ s) := by
    rw [Executions.unlock_lock] at hlock
    split_ifs at hlock
    · unfold lockOf
      rw [hlock]
      exact (moves_rejoin q e.task m (.lock s) _).unlock
    · exact hkept hlock
  cases steps with
  | locked pc free =>
    by_cases hs : s = (q.execs.exec t).session
    · subst hs
      have hline : q.line t = some (.lock (q.execs.exec t).session) :=
        Execution.line_eq_lock.mpr ⟨pc,rfl⟩
      have hhead : (q.queue (.lock (q.execs.exec t).session)).head? = some t := by
        simpa [turn,hline] using hturn
      have htake := (Lock.Moves.refl (t := t) (l := q.lockOf (q.execs.exec t).session)).take free
        fun t' ht' => Option.some.inj (ht'.symm.trans hhead)
      simpa [lockOf,rejoin,hline,Executions.setPc,Executions.setLock,ExecEvent.task,
        Execution.line] using htake
    · exact hkept (by simp [Executions.setPc,Executions.set,hs])
  | unlocked | leaves => exact hunlock rfl
  | _ => exact hkept rfl

end QueuedExecutions
end CodeExecutorApi
