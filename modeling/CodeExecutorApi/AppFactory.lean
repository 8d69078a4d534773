import CodeExecutorApi.Sessions.Coherence
import CodeExecutorApi.Sessions.Passes

/-! The application from start to shutdown: the loop of sweep passes, and the cleanup that stops it
and removes every session, while handlers may still be running. -/
namespace CodeExecutorApi

/-- `SessionManager._sweep_task`. It sleeps, or runs a pass as a task of the manager. -/
inductive SweepTask
  | none
  | sleeping
  | sweeping (t : TaskId)
  | ended
  deriving DecidableEq, Repr

/-- How far `on_cleanup` has come, and how each removal of `delete_all` ended. -/
inductive Cleanup
  | serving
  | stopping
  | deleting (removed : List (Ref × Signal)) (s : Ref) (rest : List Ref)
  | complete (removed : List (Ref × Signal))
  | cancelled

/-- What `delete_all` has done and has still to do. -/
def Cleanup.left : Cleanup → Option (List (Ref × Signal) × List Ref)
  | .deleting removed s rest => some (removed,s::rest)
  | .complete removed => some (removed,[])
  | _ => none

structure App (D A : Type) where
  manager : Manager D A
  sweepTask : SweepTask
  /-- `cancel` was called on the sweep task, which has not gone on since. -/
  cancelling : Bool
  cleanup : Cleanup

inductive AppEvent (D A : Type)
  | onStartup
  /-- A step of the manager, taken by a handler, by the pass of the sweep or by a worker thread. -/
  | manager (e : Event D A)
  /-- The sweep task has slept and begins a pass. -/
  | wake (t : TaskId)
  /-- The pass is over. -/
  | passed
  | sleepCancelled
  | onCleanup
  /-- `on_cleanup` is cancelled while it waits for the sweep task, which passes this on. -/
  | cancel
  | sweepStopped
  /-- The removal that `delete_all` waits for ended. -/
  | resume (sig : Signal)
  | erode (d : D)

namespace App
open Manager (Registry Forward)
variable {D A : Type}

def create (cfg : Config) : App D A := ⟨Manager.init cfg,.none,false,.serving⟩

variable (a : App D A)

def startSweep : App D A :=
  match a.sweepTask with
  | .none => {a with sweepTask := .sleeping}
  | _ => a

/-- `self._sweep_task.cancel()`, which does nothing to a task that is done. -/
def cancelSweep : App D A :=
  match a.sweepTask with
  | .none | .ended => a
  | _ => {a with cancelling := true}

/-- `delete_all` from one session of its snapshot on. -/
def deleteFrom (removed : List (Ref × Signal)) : List Ref → Cleanup
  | [] => .complete removed
  | s::rest => .deleting removed s rest

def deleteAll : App D A :=
  {a with cleanup := deleteFrom [] (a.manager.sessions.map Prod.snd)}

/-- `stop_sweep` up to its await. -/
def onCleanup : App D A :=
  match a.sweepTask with
  | .none => a.deleteAll
  | _ => {a.cancelSweep with cleanup := .stopping}

/-- Whether the sweep task has to be told that it was cancelled when `t` goes on. -/
def tells (t : TaskId) : Bool := a.cancelling && a.sweepTask == .sweeping t

def managerStep (fs : Storage D A) (cfg : Config) (e : Event D A) : Option (App D A) :=
  match e with
  | .sweep _ => none
  | .resume t sig =>
    if a.tells t then
      if sig = .cancelled then
        (a.manager.step fs cfg e).map fun m => {a with manager := m, cancelling := false}
      else none
    else (a.manager.step fs cfg e).map fun m => {a with manager := m}
  | _ => (a.manager.step fs cfg e).map fun m => {a with manager := m}

/-- One step of the application. -/
def step (fs : Storage D A) (cfg : Config) (a : App D A) : AppEvent D A → Option (App D A)
  | .onStartup =>
    match a.cleanup with
    | .serving => some a.startSweep
    | _ => none
  | .manager e => a.managerStep fs cfg e
  | .wake t =>
    if a.sweepTask = .sleeping ∧ a.cancelling = false then
      (a.manager.step fs cfg (.sweep t)).map fun m =>
        {a with manager := m, sweepTask := .sweeping t}
    else none
  | .passed =>
    match a.sweepTask with
    | .sweeping t =>
      match a.manager.task t with
      | .done _ .cancelled => some {a with sweepTask := .ended}
      | .done _ _ => some {a with sweepTask := .sleeping}
      | _ => none
    | _ => none
  | .sleepCancelled =>
    if a.sweepTask = .sleeping ∧ a.cancelling = true then
      some {a with sweepTask := .ended, cancelling := false}
    else none
  | .onCleanup =>
    match a.cleanup with
    | .serving => some a.onCleanup
    | _ => none
  | .cancel =>
    match a.cleanup with
    | .stopping => some a.cancelSweep
    | _ => none
  | .sweepStopped =>
    match a.cleanup,a.sweepTask with
    | .stopping,.ended => some {a with sweepTask := .none, cancelling := false}.deleteAll
    | _,_ => none
  | .resume sig =>
    match a.cleanup with
    | .deleting removed s rest =>
      -- an exception is logged, and the next session comes
      some {a with
        manager := a.manager.afterRemoval s sig
        cleanup := if sig = .cancelled then .cancelled else deleteFrom (removed ++ [(s,sig)]) rest}
    | _ => none
  | .erode d =>
    match a.cleanup with
    | .deleting _ s _ =>
      (a.manager.dir s).map fun _ => {a with manager := a.manager.setDir s (some d)}
    | _ => none

/-- The events with which `delete_all` takes its snapshot. -/
def begins (a : App D A) : AppEvent D A → Prop
  | .onCleanup => a.sweepTask = .none
  | .sweepStopped => True
  | _ => False

/-- What a step can do. -/
inductive Steps (fs : Storage D A) (cfg : Config) (a : App D A) : AppEvent D A → App D A → Prop
  | startup (serving : a.cleanup = .serving) : Steps fs cfg a .onStartup a.startSweep
  | manager {e m} (other : ∀ t, e ≠ .sweep t)
      (untold : ∀ t sig, e = .resume t sig → a.tells t = false)
      (taken : a.manager.step fs cfg e = some m) :
      Steps fs cfg a (.manager e) {a with manager := m}
  | told {t m} (sweeping : a.sweepTask = .sweeping t) (cancelling : a.cancelling = true)
      (taken : a.manager.step fs cfg (.resume t .cancelled) = some m) :
      Steps fs cfg a (.manager (.resume t .cancelled)) {a with manager := m, cancelling := false}
  | wakes {t m} (sleeping : a.sweepTask = .sleeping) (calm : a.cancelling = false)
      (taken : a.manager.step fs cfg (.sweep t) = some m) :
      Steps fs cfg a (.wake t) {a with manager := m, sweepTask := .sweeping t}
  | ends {t c} (sweeping : a.sweepTask = .sweeping t)
      (pc : a.manager.task t = .done c .cancelled) :
      Steps fs cfg a .passed {a with sweepTask := .ended}
  | sleeps {t c how} (sweeping : a.sweepTask = .sweeping t) (pc : a.manager.task t = .done c how)
      (hhow : how ≠ .cancelled) : Steps fs cfg a .passed {a with sweepTask := .sleeping}
  | sleepCancelled (sleeping : a.sweepTask = .sleeping) (cancelling : a.cancelling = true) :
      Steps fs cfg a .sleepCancelled {a with sweepTask := .ended, cancelling := false}
  | stops (serving : a.cleanup = .serving) (running : a.sweepTask ≠ .none) :
      Steps fs cfg a .onCleanup {a.cancelSweep with cleanup := .stopping}
  | deletes (serving : a.cleanup = .serving) (unstarted : a.sweepTask = .none) :
      Steps fs cfg a .onCleanup a.deleteAll
  | cancels (stopping : a.cleanup = .stopping) : Steps fs cfg a .cancel a.cancelSweep
  | stopped (stopping : a.cleanup = .stopping) (ended : a.sweepTask = .ended) :
      Steps fs cfg a .sweepStopped {a with sweepTask := .none, cancelling := false}.deleteAll
  | removed {removed s rest sig} (deleting : a.cleanup = .deleting removed s rest) :
      Steps fs cfg a (.resume sig) {a with
        manager := a.manager.afterRemoval s sig
        cleanup := if sig = .cancelled then .cancelled else deleteFrom (removed ++ [(s,sig)]) rest}
  | erodes {removed s rest d} (deleting : a.cleanup = .deleting removed s rest)
      (present : (a.manager.dir s).isSome = true) :
      Steps fs cfg a (.erode d) {a with manager := a.manager.setDir s (some d)}

section Steps
variable {fs : Storage D A} {cfg : Config} {a a' : App D A} {e : AppEvent D A}

theorem managerStep_cases {e : Event D A} (hstep : a.managerStep fs cfg e = some a') :
    Steps fs cfg a (.manager e) a' := by
  have hplain (hother : ∀ t, e ≠ .sweep t)
      (huntold : ∀ t sig, e = .resume t sig → a.tells t = false)
      (hmap : (a.manager.step fs cfg e).map (fun m => {a with manager := m}) = some a') :
      Steps fs cfg a (.manager e) a' := by
    obtain ⟨m,taken,rfl⟩ := Option.map_eq_some_iff.mp hmap
    exact .manager hother huntold taken
  cases e with
  | sweep t => cases hstep
  | resume t sig =>
    simp only [managerStep] at hstep
    split_ifs at hstep with htells hsig
    · subst hsig
      obtain ⟨m,taken,rfl⟩ := Option.map_eq_some_iff.mp hstep
      simp only [tells,Bool.and_eq_true,beq_iff_eq] at htells
      exact .told htells.2 htells.1 taken
    · refine hplain (by simp) (fun t' sig' he => ?_) hstep
      cases he
      simpa using htells
  | _ => exact hplain (by simp) (by simp) hstep

theorem step_cases (hstep : a.step fs cfg e = some a') : Steps fs cfg a e a' := by
  cases e with
  | manager e => exact managerStep_cases hstep
  | onStartup =>
    simp only [step] at hstep
    split at hstep <;> cases hstep
    exact .startup ‹_›
  | wake t =>
    simp only [step] at hstep
    split_ifs at hstep with h
    obtain ⟨m,taken,rfl⟩ := Option.map_eq_some_iff.mp hstep
    exact .wakes h.1 h.2 taken
  | passed =>
    simp only [step] at hstep
    split at hstep
    · split at hstep <;> cases hstep
      · exact .ends ‹_› ‹_›
      · rename_i hsweeping pc c how hhow hpc
        exact .sleeps hsweeping hpc hhow
    · cases hstep
  | sleepCancelled =>
    simp only [step] at hstep
    split_ifs at hstep with h
    cases hstep
    exact .sleepCancelled h.1 h.2
  | onCleanup =>
    simp only [step] at hstep
    split at hstep <;> cases hstep
    rename_i hserving
    by_cases h : a.sweepTask = .none
    · rw [onCleanup,h]
      exact .deletes hserving h
    · have he : a.onCleanup = {a.cancelSweep with cleanup := .stopping} := by
        cases hs : a.sweepTask <;> simp_all [onCleanup]
      rw [he]
      exact .stops hserving h
  | cancel =>
    simp only [step] at hstep
    split at hstep <;> cases hstep
    exact .cancels ‹_›
  | sweepStopped =>
    simp only [step] at hstep
    split at hstep <;> cases hstep
    exact .stopped ‹_› ‹_›
  | resume sig =>
    simp only [step] at hstep
    split at hstep <;> cases hstep
    exact .removed ‹_›
  | erode d =>
    simp only [step] at hstep
    split at hstep
    · obtain ⟨d',hd,rfl⟩ := Option.map_eq_some_iff.mp hstep
      exact .erodes ‹_› (Option.isSome_of_eq_some hd)
    · cases hstep

end Steps

@[simp] theorem left_deleteFrom (removed : List (Ref × Signal)) (left : List Ref) :
    (deleteFrom removed left).left = some (removed,left) := by cases left <;> rfl

theorem cancelSweep_eq : a.cancelSweep = {a with cancelling := a.cancelSweep.cancelling} := by
  unfold cancelSweep
  split <;> rfl

/-- A sweep task that has begun will be told, or has ended. -/
theorem cancelSweep_tells {a : App D A} (h : a.sweepTask ≠ .none) :
    a.sweepTask = .ended ∨ a.cancelSweep.cancelling = true ∧ a.sweepTask ≠ .none := by
  cases hsweep : a.sweepTask with
  | none => exact absurd hsweep h
  | ended => exact .inl rfl
  | _ => exact .inr ⟨by rw [cancelSweep,hsweep],by simp⟩

/-- `delete_all` has come through `removed`, and the sessions `left` remain. -/
structure Deletes (h : List (App D A × AppEvent D A)) (a : App D A)
    (removed : List (Ref × Signal)) (left : List Ref) : Prop where
  stopped : a.sweepTask = .none
  begun : ∃ p ∈ h, p.1.begins p.2 ∧
    removed.map Prod.fst ++ left = p.1.manager.sessions.map Prod.snd ∧
      p.1.manager.next ≤ a.manager.next ∧
        ∀ s < p.1.manager.next, a.manager.registered s = true → s ∈ left
  made : ∀ s ∈ left, s < a.manager.next
  gone : ∀ q ∈ removed, q.2 = .ok → q.1 < a.manager.next ∧ a.manager.dir q.1 = none

/-- What every run of the application keeps. -/
structure Sound (cfg : Config) (h : List (App D A × AppEvent D A)) (a : App D A) : Prop where
  registry : Registry cfg a.manager
  sweeping : ∀ t, (a.manager.task t).sweeping = true → a.sweepTask = .sweeping t
  passes : ∀ t, a.sweepTask = .sweeping t → (a.manager.task t).Passing
  stopping : a.cleanup = .stopping → a.sweepTask = .ended ∨
    a.cancelling = true ∧ a.sweepTask ≠ .none ∨
      ∃ t, a.sweepTask = .sweeping t ∧ (a.manager.task t).stopping = true
  deleting : ∀ removed left, a.cleanup.left = some (removed,left) → Deletes h a removed left

section Sound
variable {fs : Storage D A} {cfg : Config} {a a' : App D A} {e : AppEvent D A}
  {h : List (App D A × AppEvent D A)} {ends : List (Ref × Signal)} {left : List Ref}

theorem Deletes.cons (hd : Deletes h a ends left) (p : App D A × AppEvent D A) :
    Deletes (p::h) a ends left where
  __ := hd
  begun := by
    obtain ⟨q,hq,hrest⟩ := hd.begun
    exact ⟨q,List.mem_cons_of_mem _ hq,hrest⟩

/-- The manager goes on while `delete_all` waits for a removal. -/
theorem Deletes.forward (hd : Deletes h a ends left) (hf : Forward a.manager a'.manager)
    (hdir : ∀ s < a.manager.next, a.manager.dir s = none → a'.manager.dir s = none)
    (hs : a'.sweepTask = .none) : Deletes h a' ends left where
  stopped := hs
  begun := by
    obtain ⟨q,hq,hbegins,hsnapshot,hle,hreg⟩ := hd.begun
    refine ⟨q,hq,hbegins,hsnapshot,Nat.le_trans hle hf.1,fun s hlt hs => ?_⟩
    exact hreg s hlt (hf.2 s (Nat.lt_of_lt_of_le hlt hle) hs)
  made s hs := Nat.lt_of_lt_of_le (hd.made s hs) hf.1
  gone q hq hok := by
    obtain ⟨hlt,hgone⟩ := hd.gone q hq hok
    exact ⟨Nat.lt_of_lt_of_le hlt hf.1,hdir q.1 hlt hgone⟩

/-- The snapshot of `delete_all`. -/
theorem Deletes.start (hr : Registry cfg a.manager) (hbegins : a.begins e)
    (hm : a'.manager = a.manager) (hs : a'.sweepTask = .none) :
    Deletes ((a,e)::h) a' [] (a.manager.sessions.map Prod.snd) where
  stopped := hs
  begun := by
    refine ⟨(a,e),List.mem_cons_self,hbegins,rfl,Nat.le_of_eq (by rw [hm]),fun s _ hs => ?_⟩
    rw [hm] at hs
    exact hr.registered_iff.mp hs
  made s hs := by
    obtain ⟨p,hp,rfl⟩ := List.mem_map.mp hs
    rw [hm]
    exact (hr.entries p hp).1
  gone := List.forall_mem_nil _

/-- The removal that `delete_all` waits for ended, however it did. -/
theorem Deletes.removed {s : Ref} {rest : List Ref} (hr : Registry cfg a.manager)
    (hd : Deletes h a ends (s::rest)) (sig : Signal)
    (hm : a'.manager = a.manager.afterRemoval s sig) (hs : a'.sweepTask = .none) :
    Deletes h a' (ends ++ [(s,sig)]) rest := by
  obtain ⟨free,dir,abandoned,he⟩ := Manager.afterRemoval_frame a.manager s sig
  have hnext : a'.manager.next = a.manager.next := by rw [hm,he]; rfl
  have hreg (r : Ref) (hr' : a'.manager.registered r = true) :
      a.manager.registered r = true ∧ r ≠ s := by
    rw [hm,he] at hr'
    exact (hr.pop_registered s r).mp hr'
  have hdir (r : Ref) (hgone : a.manager.dir r = none) : a'.manager.dir r = none := by
    rw [hm]
    cases sig with
    | ok =>
      rw [Manager.afterRemoval,Manager.releaseProjectId_eq]
      change (a.manager.setDir s none).dir r = none
      rw [Manager.setDir_dir,hgone]
      exact ite_self _
    | osError | timeout | exception | cancelled => exact hgone
  have hlt := hd.made s List.mem_cons_self
  refine ⟨hs,?_,fun r hrest => hnext ▸ hd.made r (List.mem_cons_of_mem _ hrest),?_⟩
  · obtain ⟨p,hp,hbegins,hsnapshot,hle,hall⟩ := hd.begun
    refine ⟨p,hp,hbegins,?_,hnext ▸ hle,fun r hr hr' => ?_⟩
    · rw [← hsnapshot]
      simp
    · obtain ⟨hold,hne⟩ := hreg r hr'
      exact (List.mem_cons.mp (hall r hr hold)).resolve_left hne
  · refine List.forall_mem_append.mpr ⟨fun q hq hok => ?_,?_⟩
    · obtain ⟨hlt,hgone⟩ := hd.gone q hq hok
      exact ⟨hnext ▸ hlt,hdir q.1 hgone⟩
    · refine List.forall_mem_singleton.mpr fun hok => ?_
      obtain rfl : sig = .ok := hok
      refine ⟨hnext ▸ hlt,?_⟩
      rw [hm,Manager.afterRemoval,Manager.releaseProjectId_eq]
      exact (Manager.setDir_dir a.manager s s none).trans (if_pos rfl)

/-- The manager takes a step with which no pass begins. -/
theorem Sound.manager (hs : Sound cfg h a) {e : Event D A} {m : Manager D A} {told : Bool}
    (other : ∀ t, e ≠ .sweep t) (taken : a.manager.step fs cfg e = some m)
    (htold : told = a.cancelling ∨
      ∃ t, a.sweepTask = .sweeping t ∧ (m.task t).stopping = true) :
    Sound cfg h {a with manager := m, cancelling := told} := by
  have steps := Manager.step_cases hs.registry taken
  have hf := steps.forward hs.registry
  refine ⟨steps.registry hs.registry,
    fun t ht => hs.sweeping t (steps.sweeping hs.registry other ht),
    fun t ht => steps.passing hs.registry (hs.passes t ht),fun hstopping => ?_,
    fun removed left hleft => ?_⟩
  · rcases htold with rfl | htold
    · rcases hs.stopping hstopping with hended | hcancelling | ⟨t,ht,hpc⟩
      · exact .inl hended
      · exact .inr (.inl hcancelling)
      · exact .inr (.inr ⟨t,ht,steps.stopping hs.registry hpc⟩)
    · exact .inr (.inr htold)
  · have hd := hs.deleting removed left hleft
    have hdir (s : Ref) (hlt : s < a.manager.next) : a.manager.dir s = none → m.dir s = none :=
      steps.dir_gone hs.registry fun _ _ _ _ => Nat.ne_of_lt hlt
    exact hd.forward hf hdir hd.stopped

/-- The cleanup is not in `delete_all`. -/
theorem Sound.early (hr : Registry cfg a.manager) (hleft : a.cleanup.left = none)
    (hsweeping : ∀ t, (a.manager.task t).sweeping = true → a.sweepTask = .sweeping t)
    (hpasses : ∀ t, a.sweepTask = .sweeping t → (a.manager.task t).Passing)
    (hstopping : a.cleanup = .stopping →
      a.sweepTask = .ended ∨ a.cancelling = true ∧ a.sweepTask ≠ .none) :
    Sound cfg h a where
  registry := hr
  sweeping := hsweeping
  passes := hpasses
  stopping hc := (hstopping hc).imp_right .inl
  deleting removed left h := by
    rw [hleft] at h
    cases h

theorem Sound.cons (hs : Sound cfg h a) (p : App D A × AppEvent D A) : Sound cfg (p::h) a where
  __ := hs
  deleting removed left hleft := (hs.deleting removed left hleft).cons p

theorem Sound.left_none (hs : Sound cfg h a) (hrunning : a.sweepTask ≠ .none) :
    a.cleanup.left = none := by
  cases hleft : a.cleanup.left with
  | none => rfl
  | some p => exact absurd (hs.deleting p.1 p.2 hleft).stopped hrunning

/-- The cleanup is in `delete_all`. -/
theorem Sound.late (hr : Registry cfg a.manager) (hc : a.cleanup = deleteFrom ends left)
    (hd : Deletes h a ends left) (hidle : ∀ t, (a.manager.task t).sweeping ≠ true) :
    Sound cfg h a where
  registry := hr
  sweeping t ht := absurd ht (hidle t)
  passes t ht := by
    rw [hd.stopped] at ht
    cases ht
  stopping hstopping := by
    have hleft := left_deleteFrom ends left
    rw [← hc,hstopping] at hleft
    cases hleft
  deleting removed' left' hleft := by
    rw [hc,left_deleteFrom] at hleft
    cases hleft
    exact hd

theorem Sound.step (hs : Sound cfg h a) (steps : Steps fs cfg a e a') :
    Sound cfg ((a,e)::h) a' := by
  have hall := hs.cons (a,e)
  have hidle (hnot : ∀ t, a.sweepTask ≠ .sweeping t) (t : TaskId) :
      (a.manager.task t).sweeping ≠ true := fun ht => hnot t (hs.sweeping t ht)
  cases steps with
  | manager other _ taken => exact hall.manager other taken (.inl rfl)
  | @told t m sweeping cancelling taken =>
    refine hall.manager (by simp) taken (.inr ⟨t,sweeping,?_⟩)
    rcases hs.passes t sweeping with hpc | ⟨c,how,hdone⟩
    · cases Manager.step_cases hs.registry taken with
      | resume resumes => exact resumes.told hpc
    · simp [Manager.step,Manager.resume,hdone] at taken
  | startup serving =>
    have hleft : a.cleanup.left = none := by rw [serving]; rfl
    have hnot : a.cleanup ≠ .stopping := by simp [serving]
    cases hsweep : a.sweepTask with
    | none =>
      rw [startSweep,hsweep]
      refine .early hs.registry hleft ?_ (by simp) fun hc => absurd hc hnot
      exact fun t ht => absurd ht (hidle (by simp [hsweep]) t)
    | _ =>
      rw [startSweep,hsweep]
      exact hall
  | @wakes t m sleeping calm taken =>
    have msteps := Manager.step_cases hs.registry taken
    refine ⟨msteps.registry hs.registry,fun t' ht' => ?_,fun t' ht' => ?_,fun hc => ?_,
      fun removed left hleft => ?_⟩
    · by_cases hne : t' = t
      · exact hne ▸ rfl
      · rw [msteps.others hs.registry fun he => hne (Option.some.inj he).symm] at ht'
        exact absurd ht' (hidle (by simp [sleeping]) t')
    · obtain rfl : t = t' := SweepTask.sweeping.inj ht'
      cases msteps with
      | sweep _ sweeps => exact sweeps.passing
    · rcases hs.stopping hc with hended | ⟨hcancelling,-⟩ | ⟨t',ht',-⟩
      · rw [sleeping] at hended
        cases hended
      · rw [calm] at hcancelling
        cases hcancelling
      · rw [sleeping] at ht'
        cases ht'
    · have hstopped := (hs.deleting removed left hleft).stopped
      rw [sleeping] at hstopped
      cases hstopped
  | @ends t c sweeping pc =>
    refine .early hs.registry (hs.left_none (by simp [sweeping])) (fun t' ht' => ?_) (by simp) ?_
    swap
    · exact fun _ => .inl rfl
    obtain rfl := SweepTask.sweeping.inj (sweeping.symm.trans (hs.sweeping t' ht'))
    rw [pc] at ht'
    cases ht'
  | @sleeps t c how sweeping pc hhow =>
    refine .early hs.registry (hs.left_none (by simp [sweeping])) (fun t' ht' => ?_) (by simp)
      fun hc => ?_
    · obtain rfl := SweepTask.sweeping.inj (sweeping.symm.trans (hs.sweeping t' ht'))
      rw [pc] at ht'
      cases ht'
    · rcases hs.stopping hc with hended | ⟨hcancelling,-⟩ | ⟨t',ht',hpc⟩
      · rw [sweeping] at hended
        cases hended
      · exact .inr ⟨hcancelling,by simp⟩
      · obtain rfl := SweepTask.sweeping.inj (sweeping.symm.trans ht')
        rw [pc] at hpc
        cases how <;> first | exact absurd rfl hhow | cases hpc
  | sleepCancelled sleeping =>
    exact .early hs.registry (hs.left_none (by simp [sleeping]))
      (fun t ht => absurd ht (hidle (by simp [sleeping]) t)) (by simp) fun _ => .inl rfl
  | stops serving running =>
    rw [cancelSweep_eq]
    exact .early hs.registry rfl hs.sweeping hs.passes fun _ => cancelSweep_tells running
  | @deletes serving unstarted =>
    exact .late hs.registry rfl (.start hs.registry unstarted rfl unstarted)
      (hidle (by simp [unstarted]))
  | cancels stopping =>
    have hrunning : a.sweepTask ≠ .none := by
      rcases hs.stopping stopping with hended | ⟨-,hrunning⟩ | ⟨t,ht,-⟩
      · simp [hended]
      · exact hrunning
      · simp [ht]
    rw [cancelSweep_eq]
    exact .early hs.registry (hs.left_none hrunning) hs.sweeping hs.passes
      fun _ => cancelSweep_tells hrunning
  | stopped stopping ended =>
    exact .late hs.registry rfl (.start hs.registry trivial rfl rfl) (hidle (by simp [ended]))
  | @removed removed s rest sig deleting =>
    have hd := hall.deleting removed (s::rest) (by rw [deleting]; rfl)
    have htask : (a.manager.afterRemoval s sig).task = a.manager.task := by
      obtain ⟨free,dir,abandoned,he⟩ := Manager.afterRemoval_frame a.manager s sig
      rw [he]
      rfl
    have hnot (t : TaskId) : ((a.manager.afterRemoval s sig).task t).sweeping ≠ true := by
      rw [htask]
      exact hidle (by simp [hd.stopped]) t
    have hr := hs.registry.afterRemoval s sig
    by_cases hsig : sig = .cancelled
    · refine .early hr (by rw [if_pos hsig]; rfl) (fun t ht => absurd ht (hnot t))
        (fun t ht => ?_) ?_
      · rw [hd.stopped] at ht
        cases ht
      · rw [if_pos hsig]
        exact fun hc => by cases hc
    · exact .late hr (if_neg hsig) (hd.removed hs.registry sig rfl hd.stopped) hnot
  | @erodes removed s rest d deleting present =>
    have hd := hall.deleting removed (s::rest) (by rw [deleting]; rfl)
    refine .late (hs.registry.congr rfl rfl fun _ => rfl)
      (deleting.trans (rfl : _ = deleteFrom removed (s::rest))) ?_ (hidle (by simp [hd.stopped]))
    refine hd.forward ⟨Nat.le_refl _,fun _ _ hr => hr⟩ (fun r _ hr => ?_) hd.stopped
    have hne : r ≠ s := by
      rintro rfl
      rw [hr] at present
      cases present
    exact (Manager.setDir_dir _ _ _ _).trans ((if_neg hne).trans hr)

theorem sound_of_run (run : Machine.Run (step fs cfg) (create cfg) h a) : Sound cfg h a := by
  induction run with
  | start =>
    exact .early (Manager.Coherent.init cfg).registry rfl
      (by simp [create,Manager.init,Pc.sweeping]) (by simp [create]) (by simp [create])
  | next run taken ih => exact ih.step (step_cases taken)

/-- Once the cleanup is complete, no sweep runs, and every session that was registered when
`delete_all` began was removed in its turn, whatever became of the others: none of them is
registered, and the directory is gone if its removal succeeded. Handlers may have gone on all the
time. -/
theorem cleaned_up (run : Machine.Run (step fs cfg) (create cfg) h a)
    (hcomplete : a.cleanup = .complete ends) :
    (a.sweepTask = .none ∧ ∀ t, (a.manager.task t).sweeping = false) ∧
      ∃ p ∈ h, p.1.begins p.2 ∧ ends.map Prod.fst = p.1.manager.sessions.map Prod.snd ∧
        (∀ s, a.manager.registered s = true → p.1.manager.next ≤ s) ∧
          ∀ q ∈ ends, q.2 = .ok → a.manager.dir q.1 = none := by
  have hs := sound_of_run run
  have hd : Deletes h a ends [] := hs.deleting ends [] (by rw [hcomplete]; rfl)
  obtain ⟨p,hp,hbegins,hsnapshot,-,hreg⟩ := hd.begun
  refine ⟨⟨hd.stopped,fun t => ?_⟩,p,hp,hbegins,?_,fun s hs => ?_,fun q hq hok => ?_⟩
  · rw [Bool.eq_false_iff]
    intro ht
    have hsweep := hs.sweeping t ht
    rw [hd.stopped] at hsweep
    cases hsweep
  · rwa [List.append_nil] at hsnapshot
  · exact Nat.le_of_not_lt fun hlt => List.not_mem_nil (hreg s hlt hs)
  · exact (hd.gone q hq hok).2

/-- The first of two removals fails, and meanwhile a third session is created. -/
theorem cleaned_up_two : ∃ h a,
    Machine.Run (step Storage.log Config.tight) (create Config.tight) h a ∧
      a.manager.registered 2 = true ∧ a.manager.dir 1 = none ∧
        ∃ p ∈ h, p.1.begins p.2 ∧ p.1.manager.sessions.map Prod.snd = [0,1] ∧
          ∀ s, a.manager.registered s = true → p.1.manager.next ≤ s := by
  have hrun : ∃ h a, Machine.replay (step Storage.log Config.tight) [] (create Config.tight)
      [.onStartup,.manager (.create 0 .create true),.manager (.resume 0 .ok),
        .manager (.create 1 .create true),.manager (.resume 1 .ok),.onCleanup,.sleepCancelled,
        .sweepStopped,.resume .exception,.manager (.create 2 .create true),.resume .ok] =
          some (h,a) ∧ a.cleanup = .complete [(0,.exception),(1,.ok)] ∧
            a.manager.registered 2 = true :=
    ⟨_,_,rfl,rfl,rfl⟩
  obtain ⟨h,a,hr,hcomplete,hregistered⟩ := hrun
  obtain ⟨-,p,hp,hbegins,hsnapshot,hlater,hgone⟩ := cleaned_up (Machine.replay_run hr) hcomplete
  exact ⟨h,a,Machine.replay_run hr,hregistered,hgone (1,.ok) (by simp) rfl,p,hp,hbegins,
    hsnapshot.symm,hlater⟩

end Sound

/-- The steps of the sweep task and of the cleanup itself. -/
def Own (a : App D A) : AppEvent D A → Prop
  | .manager (.resume t _) => a.sweepTask = .sweeping t
  | .passed | .sleepCancelled | .onCleanup | .sweepStopped | .resume _ => True
  | _ => False

/-- The cleanup can complete without a step of anybody else. -/
def Completes (fs : Storage D A) (cfg : Config) (a : App D A) : Prop :=
  ∃ h a' ends, Machine.Run (step fs cfg) a h a' ∧ (∀ p ∈ h, p.1.Own p.2) ∧
    a'.cleanup = .complete ends

section Completes
variable {fs : Storage D A} {cfg : Config} {a a' : App D A} {e : AppEvent D A} {t : TaskId}
  {h : List (App D A × AppEvent D A)} {m : Manager D A}

theorem Completes.step (hc : Completes fs cfg a') (hstep : a.step fs cfg e = some a')
    (hown : a.Own e) : Completes fs cfg a := by
  obtain ⟨h,a'',ends,run,hall,hcomplete⟩ := hc
  refine ⟨h ++ [(a,e)],a'',ends,(Machine.Run.start.next hstep).trans run,?_,hcomplete⟩
  exact List.forall_mem_append.mpr ⟨hall,List.forall_mem_singleton.mpr hown⟩

theorem completes_deleting (ends : List (Ref × Signal)) (left : List Ref)
    (hc : a.cleanup = deleteFrom ends left) : Completes fs cfg a := by
  induction left generalizing a ends with
  | nil => exact ⟨[],a,ends,.start,List.forall_mem_nil _,hc⟩
  | cons s rest ih =>
    have hdeleting : a.cleanup = .deleting ends s rest := hc
    refine (ih (ends ++ [(s,.ok)]) ?_).step (e := .resume .ok)
      (by simp only [App.step,hdeleting]; rfl) trivial
    rfl

theorem completes_ended (hc : a.cleanup = .stopping) (hended : a.sweepTask = .ended) :
    Completes fs cfg a := by
  have hdeletes : Completes fs cfg {a with sweepTask := .none, cancelling := false}.deleteAll :=
    completes_deleting [] (a.manager.sessions.map Prod.snd) rfl
  refine hdeletes.step (e := .sweepStopped) ?_ trivial
  simp only [App.step,hc,hended]

/-- The sweep task goes on, and is told that it was cancelled if it does not know yet. -/
theorem Completes.pass (ht : a.sweepTask = .sweeping t)
    (hstep : ∀ sig, ∃ m, a.manager.step fs cfg (.resume t sig) = some m ∧
      Completes fs cfg {a with manager := m, cancelling := false}) : Completes fs cfg a := by
  cases hcancelling : a.cancelling with
  | true =>
    obtain ⟨m,taken,hm⟩ := hstep .cancelled
    refine hm.step (e := .manager (.resume t .cancelled)) ?_ ht
    simp [App.step,managerStep,tells,hcancelling,ht,taken]
  | false =>
    obtain ⟨m,taken,hm⟩ := hstep .ok
    refine hm.step (e := .manager (.resume t .ok)) ?_ ht
    simp [App.step,managerStep,tells,hcancelling,taken]

theorem completes_done {c : Option Ref} (hc : a.cleanup = .stopping)
    (ht : a.sweepTask = .sweeping t) (hpc : a.manager.task t = .done c .cancelled) :
    Completes fs cfg a := by
  have hended : Completes fs cfg {a with sweepTask := .ended} := completes_ended hc rfl
  refine hended.step (e := .passed) ?_ trivial
  simp only [App.step,ht,hpc]

theorem completes_deleted {now : ℕ} {s : Ref} {rest : List Ref} (hc : a.cleanup = .stopping)
    (ht : a.sweepTask = .sweeping t) (hpc : a.manager.task t = .deleted true now s rest) :
    Completes fs cfg a := by
  refine .pass ht fun sig => ?_
  obtain ⟨m,taken,hdone⟩ := Manager.resume_deleted fs cfg hpc sig
  exact ⟨m,taken,completes_done hc ht hdone⟩

/-- A pass that was told. -/
theorem completes_stopping (hc : a.cleanup = .stopping) (ht : a.sweepTask = .sweeping t)
    (hpc : (a.manager.task t).stopping = true) : Completes fs cfg a := by
  cases hq : a.manager.task t with
  | deletion cancelled now s rest =>
    rw [hq] at hpc
    cases cancelled with
    | false => cases hpc
    | true =>
      refine .pass ht fun sig => ?_
      obtain ⟨m,taken,hdeleted⟩ := Manager.resume_deletion fs cfg hq sig
      exact ⟨m,taken,completes_deleted hc ht hdeleted⟩
  | deleted cancelled now s rest =>
    rw [hq] at hpc
    cases cancelled with
    | false => cases hpc
    | true => exact completes_deleted hc ht hq
  | done c how =>
    rw [hq] at hpc
    cases how <;> first | exact completes_done hc ht hq | cases hpc
  | _ =>
    rw [hq] at hpc
    cases hpc

/-- The sweep task sleeps. -/
theorem completes_sleeping (hc : a.cleanup = .stopping) (ht : a.sweepTask = .sleeping)
    (hcancelling : a.cancelling = true) : Completes fs cfg a := by
  have hended : Completes fs cfg {a with sweepTask := .ended, cancelling := false} :=
    completes_ended hc rfl
  refine hended.step (e := .sleepCancelled) ?_ trivial
  simp [App.step,ht,hcancelling]

theorem Sound.completes (hs : Sound cfg h a)
    (hbegun : a.cleanup = .stopping ∨ a.cleanup.left ≠ none) : Completes fs cfg a := by
  rcases hbegun with hc | hleft
  · rcases hs.stopping hc with hended | ⟨hcancelling,hrunning⟩ | ⟨t,ht,hpc⟩
    · exact completes_ended hc hended
    · cases hsweep : a.sweepTask with
      | none => exact absurd hsweep hrunning
      | ended => exact completes_ended hc hsweep
      | sleeping => exact completes_sleeping hc hsweep hcancelling
      | sweeping t =>
        rcases hs.passes t hsweep with hpc | ⟨c,how,hdone⟩
        · obtain ⟨m,taken⟩ := Manager.resume_cancelled fs cfg hpc
          have htold : Completes fs cfg {a with manager := m, cancelling := false} := by
            cases Manager.step_cases hs.registry taken with
            | resume resumes => exact completes_stopping hc hsweep (resumes.told hpc)
          refine htold.step (e := .manager (.resume t .cancelled)) ?_ hsweep
          simp [App.step,managerStep,tells,hcancelling,hsweep,taken]
        · -- the pass was over before it could be told, and the next sleep is cancelled
          by_cases hhow : how = .cancelled
          · exact completes_done hc hsweep (hhow ▸ hdone)
          · have hsleeps : Completes fs cfg {a with sweepTask := .sleeping} :=
              completes_sleeping hc rfl hcancelling
            refine hsleeps.step (e := .passed) ?_ trivial
            cases how <;> first | exact absurd rfl hhow | simp only [App.step,hsweep,hdone]
    · exact completes_stopping hc ht hpc
  · cases hc : a.cleanup with
    | deleting ends s rest => exact completes_deleting ends (s::rest) hc
    | complete ends => exact completes_deleting ends [] hc
    | serving | stopping | cancelled =>
      rw [hc] at hleft
      exact absurd rfl hleft

/-- Nothing can hang the shutdown: from every reachable state, unless the cleanup was cancelled, the
sweep task and the cleanup itself can go on until it is complete, whatever handlers wait for. -/
theorem cleanup_completes (run : Machine.Run (step fs cfg) (create cfg) h a)
    (hc : a.cleanup ≠ .cancelled) : Completes fs cfg a := by
  have hs := sound_of_run run
  cases hcleanup : a.cleanup with
  | serving =>
    have hstep : App.step fs cfg a .onCleanup = some a.onCleanup := by simp only [App.step,hcleanup]
    refine Completes.step ((hs.step (step_cases hstep)).completes ?_) hstep trivial
    cases hsweep : a.sweepTask with
    | none => exact .inr (by rw [onCleanup,hsweep,deleteAll,left_deleteFrom]; simp)
    | _ => exact .inl (by rw [onCleanup,hsweep])
  | stopping => exact hs.completes (.inl hcleanup)
  | deleting | complete => exact hs.completes (.inr (by rw [hcleanup]; simp [Cleanup.left]))
  | cancelled => exact absurd hcleanup hc

/-- The sweep is deleting a session for which a request waits. -/
theorem cleanup_completes_sweeping : ∃ h a,
    Machine.Run (step Storage.log Config.tight) (create Config.tight) h a ∧
      a.cleanup = .stopping ∧ a.manager.task 2 = .acquire .request 0 ∧
        Completes Storage.log Config.tight a := by
  have hrun : ∃ h a, Machine.replay (step Storage.log Config.tight) [] (create Config.tight)
      [.onStartup,.manager (.create 0 .create true),.manager (.resume 0 .ok),.manager (.tick 2),
        .wake 1,.manager (.request 2 0),.onCleanup] = some (h,a) ∧
          a.cleanup = .stopping ∧ a.manager.task 2 = .acquire .request 0 :=
    ⟨_,_,rfl,rfl,rfl⟩
  obtain ⟨h,a,hr,hc,hpc⟩ := hrun
  exact ⟨h,a,Machine.replay_run hr,hc,hpc,cleanup_completes (Machine.replay_run hr) (by simp [hc])⟩

end Completes

end App
end CodeExecutorApi
