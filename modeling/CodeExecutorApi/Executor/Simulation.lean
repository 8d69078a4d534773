import CodeExecutorApi.Executor.Queued
import CodeExecutorApi.Executor.RunContainer

/-! `run_container` as a part of the request that awaits it: each of its runs is one of the request,
whose machine leaves out the pty and takes the awaits of `_remove_container` for one. -/
namespace CodeExecutorApi
open Machine

/-- The await of the request at which its `run_container` is here. If it raises, the request leaves
its slot and its lock at once. -/
def RunPc.phase : RunPc → ExecPc
  | .idle => .snapshot
  | .spawn => .spawn
  | .wait => .wait
  | .removeSpawn raising | .removeWait raising | .removeReap raising => .removeContainer raising
  | .reap raising => .reap raising
  | .readOutput raising => .readOutput raising
  | .raised => .done
  | .returned _ => .collectChanges

namespace ContainerRun
variable {maxSize : ℕ} {m m' : ContainerRun} {e : RunEvent} {n n' : Executions} {t : TaskId}

/-- The request `t` is where its `run_container` is, and while that waits for the client both see it
alive or neither does. -/
structure Tracks (m : ContainerRun) (n : Executions) (t : TaskId) : Prop where
  pc : (n.exec t).pc = m.pc.phase
  client : m.pc = .wait → ((n.exec t).client = .alive ↔ m.process = some none)

/-- The request goes along with at most one step of its own. -/
def Follows (n : Executions) (t : TaskId) (m' : ContainerRun) : Prop :=
  Tracks m' n t ∨ ∃ e n', e.task = t ∧ n.step e = some n' ∧ Tracks m' n' t

theorem follows_resume (sig : Signal) (n' : Executions) (hstep : n.resume t sig = some n')
    (hpc : (n'.exec t).pc = m'.pc.phase) (hwait : m'.pc ≠ .wait) : Follows n t m' :=
  .inr ⟨.resume t sig,n',rfl,hstep,hpc,fun h => absurd h hwait⟩

theorem finish_pc (h : Sound maxSize m) (hidle : m.pc ≠ .idle) (hover : m.pc.isOver = false)
    (r : Bool) : (m.finish r).pc = .readOutput r := by
  have htask : m.readTask ≠ .none := by
    rcases h.tended hidle hover with htask | htask <;> simp [htask]
  rw [finish,if_neg htask]

@[simp] theorem leave_pc (n : Executions) (t : TaskId) : ((n.leave t).exec t).pc = .done := by
  simp [Executions.leave]

/-- Every step of `run_container`, of its reader thread and of podman. -/
theorem Tracks.follows (hs : Sound maxSize m) (ht : Tracks m n t)
    (hstep : m.step maxSize e = some m') : Follows n t m' := by
  have hpc {pc : RunPc} (h : m.pc = pc) : (n.exec t).pc = pc.phase := h ▸ ht.pc
  have hread {m₁ : ContainerRun} {r : Bool} (sig : Signal) (h₁ : m₁.pc = .readOutput r)
      (hstep : n.resume t sig = some (n.setPc t (.readOutput r))) : Follows n t m₁ :=
    follows_resume sig _ hstep (by simp [Executions.setPc,h₁,RunPc.phase]) (by simp [h₁])
  have hleave {m₁ : ContainerRun} (sig : Signal) (h₁ : m₁.pc = .raised)
      (hstep : n.resume t sig = some (n.leave t)) : Follows n t m₁ :=
    follows_resume sig _ hstep (by simp [h₁,RunPc.phase]) (by simp [h₁])
  have hafter {r : Bool} (hgone : (n.exec t).client ≠ .alive) :
      n.afterWait t r = n.setPc t (.readOutput r) := by
    rw [Executions.afterWait,if_neg hgone]
  cases step_cases hstep with
  | called pc =>
    refine follows_resume .ok (n.setPc t .spawn) ?_ ?_ (by simp)
    · simp only [Executions.resume,hpc pc,RunPc.phase,if_true]
    · simp [Executions.setPc,RunPc.phase]
  | uncalled pc =>
    have hraised : (m.finish true).pc = .raised := by rw [finish,if_pos (hs.idle pc)]
    refine hleave .exception hraised ?_
    simp only [Executions.resume,hpc pc,RunPc.phase,reduceCtorEq,if_false]
  | spawned pc =>
    refine .inr ⟨.resume t .ok,n.set t { n.exec t with
      pc := .wait, container := .pending, client := .alive },rfl,?_,?_,fun _ => ?_⟩
    · simp only [Executions.step,Executions.resume,hpc pc,RunPc.phase,if_true]
    · simp [RunPc.phase]
    · simp
  | unspawned pc =>
    have hover : m.pc.isOver = false := by rw [pc]; rfl
    refine hread .exception (finish_pc hs (by simp [pc]) hover true) ?_
    simp only [Executions.resume,hpc pc,RunPc.phase,reduceCtorEq,if_false]
  | @exited status pc process =>
    have hset : Sound maxSize { m with returnCode := status } := hs.of_eq rfl rfl rfl
    have hgone : (n.exec t).client ≠ .alive := fun h => by
      have := (ht.client pc).mp h
      simp [process] at this
    have hover : m.pc.isOver = false := by rw [pc]; rfl
    refine hread .ok (finish_pc hset (by simp [pc]) hover false) ?_
    simp only [Executions.resume,hpc pc,RunPc.phase,if_neg hgone,hafter hgone]
  | overdue pc alive =>
    refine follows_resume .timeout (n.afterWait t false) ?_ ?_ (by simp)
    · simp only [Executions.resume,hpc pc,RunPc.phase]
    · simp [Executions.afterWait,(ht.client pc).mpr alive,Executions.setPc,RunPc.phase]
  | late pc gone =>
    have hset : Sound maxSize { m with timedOut := true } := hs.of_eq rfl rfl rfl
    have hgone : (n.exec t).client ≠ .alive := fun h => gone ((ht.client pc).mp h)
    have hover : m.pc.isOver = false := by rw [pc]; rfl
    refine hread .timeout (finish_pc hset (by simp [pc]) hover false) ?_
    simp only [Executions.resume,hpc pc,RunPc.phase,hafter hgone]
  | interrupted pc alive =>
    refine follows_resume .cancelled (n.afterWait t true) ?_ ?_ (by simp [setPc])
    · simp only [Executions.resume,hpc pc,RunPc.phase]
    · simp [Executions.afterWait,(ht.client pc).mpr alive,Executions.setPc,setPc,RunPc.phase]
  | cancelled pc gone =>
    have hgone : (n.exec t).client ≠ .alive := fun h => gone ((ht.client pc).mp h)
    have hover : m.pc.isOver = false := by rw [pc]; rfl
    refine hread .cancelled (finish_pc hs (by simp [pc]) hover true) ?_
    simp only [Executions.resume,hpc pc,RunPc.phase,hafter hgone]
  | @removes sig r pc' pc _ next early =>
    have hremoving : (n.exec t).pc = .removeContainer r := by
      rw [ht.pc]
      cases hm : m.pc <;> simp_all [RunPc.removing,RunPc.phase]
    have hnext : pc'.phase = .removeContainer r ∨ pc'.phase = .reap r := by
      cases pc' <;> simp_all [RunPc.removing,RunPc.phase]
    have hwait : pc' ≠ .wait := fun h => by
      rw [h] at next
      cases next
    rcases hnext with hnext | hnext
    · exact .inl ⟨hremoving.trans hnext.symm,fun h => absurd h hwait⟩
    · -- the removal is over, whether it succeeded or not
      refine follows_resume .osError (n.set t { (n.exec t).kill with
        pc := .reap r, removed := some false }) ?_ ?_ hwait
      · simp only [Executions.resume,hremoving]
      · simp [setPc,hnext]
  | stops pc _ last =>
    have hover := (RunPc.over_of_removing pc).2.1
    refine hread .ok (finish_pc hs (by simp [last]) hover _) ?_
    simp only [Executions.resume,hpc last,RunPc.phase,reduceCtorEq,if_false]
  | @forsaken sig r pc _ =>
    refine hleave .cancelled rfl ?_
    cases hm : m.pc <;> simp [RunPc.removing,hm] at pc
    all_goals simp [Executions.resume,hpc hm,RunPc.phase]
  | @read r _ _ pc =>
    cases r with
    | true =>
      refine hleave .ok rfl ?_
      simp [Executions.resume,hpc pc,RunPc.phase]
    | false =>
      refine follows_resume .ok (n.setPc t .collectChanges) ?_ ?_ (by simp [setPc])
      · simp [Executions.resume,hpc pc,RunPc.phase]
      · simp [Executions.setPc,setPc,RunPc.phase]
  | unread pc =>
    refine hleave .exception rfl ?_
    simp [Executions.resume,hpc pc,RunPc.phase]
  | dropped pc =>
    refine hleave .cancelled rfl ?_
    simp [Executions.resume,hpc pc,RunPc.phase]
  | @exits status alive =>
    by_cases hwait : m.pc = .wait
    · have hclient := (ht.client hwait).mpr alive
      refine .inr ⟨.clientDeath t,n.set t { n.exec t with client := .died },rfl,?_,?_,fun _ => ?_⟩
      · simp only [Executions.step,if_pos hclient]
      · simpa using ht.pc
      · simp
    · exact .inl ⟨ht.pc,fun h => absurd h hwait⟩
  | starts | terminal => exact .inl ⟨ht.pc,ht.client⟩

/-- Each run of `run_container` is a run of the request that awaits it, from where the request has
taken its snapshot on. -/
theorem tracks_of_run {h : List (ContainerRun × RunEvent)} (run : Run (step maxSize) init h m)
    (hpc : (n.exec t).pc = .snapshot) : ∃ h' n', Run Executions.step n h' n' ∧
      h'.length ≤ h.length ∧ (∀ p ∈ h', p.2.task = t) ∧ Tracks m n' t := by
  induction run with
  | start => exact ⟨[],n,.start,le_rfl,by simp,hpc,fun h => by cases h⟩
  | next run taken ih =>
    obtain ⟨h',n',run',hlength,htask,htracks⟩ := ih
    rcases htracks.follows (Sound.of_run run) taken with hsame | ⟨e,n'',he,hstep,htracks'⟩
    · exact ⟨h',n',run',hlength.trans (Nat.le_succ _),htask,hsame⟩
    · exact ⟨_,n'',run'.next hstep,Nat.succ_le_succ hlength,List.forall_mem_cons.mpr ⟨he,htask⟩,
        htracks'⟩

end ContainerRun
end CodeExecutorApi
