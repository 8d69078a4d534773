import CodeExecutorApi.Executor.Queued

/-! Session locks and execution slots cannot deadlock: a request that has a slot waits for nothing
but its container, whose time is limited, and whoever waits moves up in its queue. -/
namespace CodeExecutorApi
open Machine

/-- How many awaits a request that has its slot is from the end. -/
def ExecPc.remaining : ExecPc → ℕ
  | .snapshot => 7
  | .spawn => 6
  | .wait => 5
  | .removeContainer _ => 4
  | .reap _ => 3
  | .readOutput _ => 2
  | .collectChanges => 1
  | .idle | .acquireLock | .commit | .acquireSlot | .done => 0

theorem ExecPc.remaining_le (pc : ExecPc) : pc.remaining ≤ 7 := by cases pc <;> simp [remaining]

namespace Executions
variable {m m' : Executions} {e : ExecEvent} {t u : TaskId} {maxConcurrent : ℕ}

/-- The request `t` has a slot. -/
def HasSlot (m : Executions) (t : TaskId) : Prop := (m.exec t).pc.holdsSlot = true

/-- An await of the request `u` ends, or the time of its execution is up. -/
def GoesOn (u : TaskId) (m : Executions) (e : ExecEvent) : Prop :=
  e = .resume u .ok ∨ e = .resume u .timeout ∧ (m.exec u).pc = .wait

theorem hasSlot_set {x : Execution} (hslot : x.pc.holdsSlot = (m.exec t).pc.holdsSlot)
    (i : TaskId) : (m.set t x).HasSlot i ↔ m.HasSlot i := by
  rw [HasSlot,HasSlot,set_exec]
  split_ifs with hi
  · rw [hslot,hi]
  · rfl

theorem hasSlot_unlock (i : TaskId) : (m.unlock t).HasSlot i ↔ m.HasSlot i ∧ i ≠ t := by
  rw [HasSlot,HasSlot,unlock_exec]
  by_cases hi : i = t
  · simp [hi,ExecPc.holdsSlot]
  · simp [hi]

/-- The slots that are taken and those that are free are all there are. -/
theorem issued_step (h : Issued maxConcurrent m.semaphore m.HasSlot) (hstep : m.step e = some m') :
    Issued maxConcurrent m'.semaphore m'.HasSlot := by
  obtain ⟨t,steps⟩ := step_cases hstep
  have hmove {x : Execution} (hslot : x.pc.holdsSlot = (m.exec t).pc.holdsSlot) :
      Issued maxConcurrent (m.set t x).semaphore (m.set t x).HasSlot := h.congr (hasSlot_set hslot)
  cases steps with
  | locked pc free =>
    exact h.congr (hasSlot_set (x := {m.exec t with pc := .commit}) (by simp [pc,ExecPc.holdsSlot]))
  | unlocked pc =>
    have hnot : ¬m.HasSlot t := by
      rcases pc with pc | pc <;> simp [HasSlot,pc,ExecPc.holdsSlot]
    refine h.congr fun i => (hasSlot_unlock i).trans (and_iff_left_of_imp ?_)
    rintro hi rfl
    exact hnot hi
  | slotted pc free =>
    refine (free ▸ h).acquire (i := t) (by simp [HasSlot,pc,ExecPc.holdsSlot]) fun j => ?_
    change ((m.setPc t .snapshot).exec j).pc.holdsSlot = true ↔ _
    rw [setPc,set_exec,HasSlot]
    split_ifs with hj
    · simp [hj,ExecPc.holdsSlot]
    · simp [hj]
  | leaves leaves => exact h.release leaves.holdsSlot hasSlot_unlock
  | request pc | refused pc | committed pc | stamped pc | spawned pc | unspawned pc | waited pc
  | overdue pc | removed pc | unremoved pc | reaped pc | read pc =>
    exact hmove (by simp [pc,ExecPc.holdsSlot])
  | started | ended | exited | died => exact hmove rfl

/-- What is left as it is while the request `u` goes on inside its slot. -/
structure Within (u : TaskId) (m m' : Executions) : Prop where
  semaphore : m'.semaphore = m.semaphore
  lock : m'.lock = m.lock
  session : (m'.exec u).session = (m.exec u).session
  others : ∀ t, t ≠ u → m'.exec t = m.exec t

theorem within_set {x : Execution} (hsession : x.session = (m.exec u).session) :
    Within u m (m.set u x) where
  semaphore := rfl
  lock := rfl
  session := by rw [set_exec,if_pos rfl,hsession]
  others t ht := by rw [set_exec,if_neg ht]

theorem Within.trans {m'' : Executions} (h : Within u m m') (h' : Within u m' m'') :
    Within u m m'' where
  semaphore := h'.semaphore.trans h.semaphore
  lock := h'.lock.trans h.lock
  session := h'.session.trans h.session
  others t ht := (h'.others t ht).trans (h.others t ht)

/-- The request `u` comes nearer to the end inside its slot, or leaves it. -/
def Advances (u : TaskId) (m m' : Executions) : Prop :=
  (m'.exec u).pc.remaining < (m.exec u).pc.remaining ∧
    (Within u m m' ∧ m'.HasSlot u ∨ m' = m.leave u)

theorem advances_set {x : Execution} (hsession : x.session = (m.exec u).session)
    (hslot : x.pc.holdsSlot = true) (hless : x.pc.remaining < (m.exec u).pc.remaining) :
    Advances u m (m.set u x) := by
  rw [Advances,HasSlot,set_exec,if_pos rfl]
  exact ⟨hless,.inl ⟨within_set hsession,hslot⟩⟩

theorem advances_leave (hpos : 0 < (m.exec u).pc.remaining) : Advances u m (m.leave u) := by
  refine ⟨?_,.inr rfl⟩
  change ((m.unlock u).exec u).pc.remaining < _
  rwa [unlock_exec,if_pos rfl]

theorem advances_afterWait (hpc : (m.exec u).pc = .wait) : Advances u m (m.afterWait u false) := by
  rw [afterWait]
  split_ifs
  · exact advances_set (x := {m.exec u with pc := .removeContainer false}) rfl rfl
      (by simp [hpc,ExecPc.remaining])
  · exact advances_set (x := {m.exec u with pc := .readOutput false}) rfl rfl
      (by simp [hpc,ExecPc.remaining])

/-- A request that has a slot can always go on, whatever its container does. -/
theorem slot_step (hslot : m.HasSlot u) :
    ∃ e m', GoesOn u m e ∧ m.step e = some m' ∧ Advances u m m' := by
  have hok {m' : Executions} (hstep : m.resume u .ok = some m') (h : Advances u m m') :
      ∃ e m', GoesOn u m e ∧ m.step e = some m' ∧ Advances u m m' := ⟨_,m',.inl rfl,hstep,h⟩
  have hset (x : Execution) (hstep : m.resume u .ok = some (m.set u x))
      (hx : x.session = (m.exec u).session ∧ x.pc.holdsSlot = true)
      (hless : x.pc.remaining < (m.exec u).pc.remaining) := hok hstep (advances_set hx.1 hx.2 hless)
  cases hpc : (m.exec u).pc with
  | idle | acquireLock | commit | acquireSlot | done =>
    rw [HasSlot,hpc] at hslot
    cases hslot
  | snapshot =>
    refine hset {m.exec u with pc := .spawn} ?_ ⟨rfl,rfl⟩ (by simp [hpc,ExecPc.remaining])
    simp only [resume,hpc,if_true]
    rfl
  | spawn =>
    refine hset {m.exec u with pc := .wait, container := .pending, client := .alive} ?_ ⟨rfl,rfl⟩
      (by simp [hpc,ExecPc.remaining])
    simp only [resume,hpc,if_true]
  | wait =>
    -- podman may go on for ever, but its time is limited
    refine ⟨.resume u .timeout,_,.inr ⟨rfl,hpc⟩,?_,advances_afterWait hpc⟩
    simp only [step,resume,hpc]
  | removeContainer raising =>
    refine hset {(m.exec u).kill with pc := .reap raising, container := .gone, removed := some true}
      ?_ ⟨rfl,rfl⟩ (by simp [hpc,ExecPc.remaining])
    simp only [resume,hpc]
  | reap raising =>
    refine hset {m.exec u with pc := .readOutput raising} ?_ ⟨rfl,rfl⟩ (by simp [hpc,ExecPc.remaining])
    simp only [resume,hpc]
    rfl
  | readOutput raising =>
    cases raising with
    | false =>
      refine hset {m.exec u with pc := .collectChanges} ?_ ⟨rfl,rfl⟩ (by simp [hpc,ExecPc.remaining])
      simp only [resume,hpc]
      rfl
    | true =>
      refine hok ?_ (advances_leave (by simp [hpc,ExecPc.remaining]))
      simp only [resume,hpc]
      rfl
  | collectChanges =>
    refine hok ?_ (advances_leave (by simp [hpc,ExecPc.remaining]))
    simp only [resume,hpc]

/-- The request `u` has given back its slot and its lock, and nothing else has changed. -/
structure Vacates (u : TaskId) (m m' : Executions) : Prop where
  semaphore : m'.semaphore = m.semaphore+1
  lock : ∀ s, m'.lock s = if s = (m.exec u).session then none else m.lock s
  others : ∀ t, t ≠ u → m'.exec t = m.exec t

theorem vacates_leave (h : Within u m m') : Vacates u m (m'.leave u) where
  semaphore := congrArg (· + 1) h.semaphore
  lock s := by
    change (m'.unlock u).lock s = _
    rw [unlock_lock,h.session,h.lock]
  others t ht := by
    change (m'.unlock u).exec t = _
    rw [unlock_exec,if_neg ht]
    exact h.others t ht

end Executions

namespace QueuedExecutions
variable {q q' : QueuedExecutions} {e : ExecEvent} {t u : TaskId} {l : Line} {s : Ref}
  {maxConcurrent n : ℕ} {h : List (QueuedExecutions × ExecEvent)} {ahead rest : List TaskId}

/-- The request `t` has a slot. -/
def HasSlot (q : QueuedExecutions) (t : TaskId) : Prop := q.execs.HasSlot t

theorem not_hasSlot (hline : q.line t = some l) : ¬q.HasSlot t := fun hslot => by
  have hnone : q.line t = none := Execution.line_of_holdsSlot hslot
  rw [hnone] at hline
  cases hline

def GoesOn (u : TaskId) (q : QueuedExecutions) (e : ExecEvent) : Prop := q.execs.GoesOn u e

/-- Requests other than `t` go on. -/
def OthersGoOn (t : TaskId) (q : QueuedExecutions) (e : ExecEvent) : Prop :=
  ∃ u, u ≠ t ∧ GoesOn u q e

theorem othersGoOn_of_guarded (hne : u ≠ t) (hguarded : Guarded (GoesOn u) h) :
    Guarded (OthersGoOn t) h := fun p hp => ⟨u,hne,hguarded p hp⟩

/-- What holds of locks, slots and queues in every reachable state. -/
structure Valid (maxConcurrent : ℕ) (q : QueuedExecutions) : Prop where
  sound : q.execs.Sound maxConcurrent
  issued : Issued maxConcurrent q.execs.semaphore q.HasSlot
  queues : q.QueueSound

theorem Valid.next (hq : q.Valid maxConcurrent) (hstep : q.step e = some q') :
    q'.Valid maxConcurrent where
  sound := hq.sound.step (step_execs hstep)
  issued := Executions.issued_step hq.issued (step_execs hstep)
  queues := hq.queues.step hstep

theorem Valid.run (hq : q.Valid maxConcurrent) (run : Run step q h q') : q'.Valid maxConcurrent := by
  induction run with
  | start => exact hq
  | next _ taken ih => exact ih.next taken

theorem valid_init (maxConcurrent : ℕ) : (init maxConcurrent).Valid maxConcurrent where
  sound := Executions.sound_init _
  issued := .full _ fun t => by simp [HasSlot,Executions.HasSlot,init,Executions.init,ExecPc.holdsSlot]
  queues := queueSound_of_run .start

/-- A request that has a slot leaves it soon, and the queues stay as they are meanwhile. -/
theorem leave_soon (hslot : q.HasSlot u) : ∃ h q', Run step q h q' ∧ Guarded (GoesOn u) h ∧
    h.length ≤ 7 ∧ Executions.Vacates u q.execs q'.execs ∧ q'.queue = q.queue := by
  let goesOn (q' : QueuedExecutions) : Prop := (Executions.Within u q.execs q'.execs ∧ q'.HasSlot u ∨
    Executions.Vacates u q.execs q'.execs) ∧ q'.queue = q.queue
  have hnearer (q₁ : QueuedExecutions) (hq₁ : goesOn q₁)
      (hgoal : ¬Executions.Vacates u q.execs q₁.execs) : ∃ e q₂,
        GoesOn u q₁ e ∧ q₁.step e = some q₂ ∧ goesOn q₂ ∧
          (q₂.execs.exec u).pc.remaining < (q₁.execs.exec u).pc.remaining := by
    obtain ⟨hwithin,hslot₁⟩ := hq₁.1.resolve_right hgoal
    obtain ⟨e,m,hgoes,hstep,hless,hadvanced⟩ := Executions.slot_step hslot₁
    have htask : e.task = u := by
      rcases hgoes with rfl | ⟨rfl,-⟩
      · rfl
      · rfl
    have hline : q₁.line e.task = none := htask ▸ Execution.line_of_holdsSlot hslot₁
    rcases hadvanced with ⟨hwithin',hslot₂⟩ | rfl
    · have hline' : (m.exec e.task).line = none := htask ▸ Execution.line_of_holdsSlot hslot₂
      exact ⟨e,_,hgoes,step_inside hstep hline hline',⟨.inl ⟨hwithin.trans hwithin',hslot₂⟩,hq₁.2⟩,
        hless⟩
    · have hline' : ((q₁.execs.leave u).exec e.task).line = none := by
        simp [htask,Executions.leave,Execution.line]
      exact ⟨e,_,hgoes,step_inside hstep hline hline',⟨.inr (Executions.vacates_leave hwithin),hq₁.2⟩,
        hless⟩
  obtain ⟨h,q',run,hguarded,hlength,⟨-,hqueue⟩,hleft⟩ := Run.descend (GoesOn u)
    (fun q' => Executions.Vacates u q.execs q'.execs)
    (fun q' => (q'.execs.exec u).pc.remaining) hnearer ⟨.inl ⟨⟨rfl,rfl,rfl,fun _ _ => rfl⟩,hslot⟩,rfl⟩
  exact ⟨h,q',run,hguarded,hlength.trans (q.execs.exec u).pc.remaining_le,hleft,hqueue⟩

/-- While others go on, the request `t` stays at its await. -/
structure Stays (t : TaskId) (q q' : QueuedExecutions) (h : List (QueuedExecutions × ExecEvent)) :
    Prop where
  guarded : Guarded (OthersGoOn t) h
  exec : q'.execs.exec t = q.execs.exec t

theorem Stays.refl (t : TaskId) (q : QueuedExecutions) : Stays t q q [] := ⟨guarded_nil _,rfl⟩

theorem Stays.trans {q₁ : QueuedExecutions} {h₁ : List (QueuedExecutions × ExecEvent)}
    (hs : Stays t q q₁ h₁) (hs' : Stays t q₁ q' h) : Stays t q q' (h ++ h₁) :=
  ⟨List.forall_mem_append.mpr ⟨hs'.guarded,hs.guarded⟩,hs'.exec.trans hs.exec⟩

theorem Stays.hasSlot (hs : Stays t q q' h) : q'.HasSlot t ↔ q.HasSlot t := by
  rw [HasSlot,HasSlot,Executions.HasSlot,Executions.HasSlot,hs.exec]

/-- One step of another request. -/
theorem stays_resume (hne : u ≠ t) (hstep : q.step (.resume u .ok) = some q') :
    Stays t q q' [(q,.resume u .ok)] :=
  ⟨(guarded_cons _ _ _ _).mpr ⟨⟨u,hne,.inl rfl⟩,guarded_nil _⟩,
    Executions.step_frame (step_execs hstep) hne.symm⟩

/-- A slot becomes free soon. -/
theorem slot_soon (hpos : 0 < maxConcurrent) (hq : q.Valid maxConcurrent) : ∃ h q', Run step q h q' ∧
    h.length ≤ 7 ∧ 0 < q'.execs.semaphore ∧ q'.queue = q.queue ∧
      ∀ t, ¬q.HasSlot t → Stays t q q' h := by
  by_cases hfree : 0 < q.execs.semaphore
  · exact ⟨[],q,.start,Nat.zero_le _,hfree,rfl,fun t _ => .refl t q⟩
  have hnone : q.execs.semaphore = 0 := by omega
  obtain ⟨u,hu⟩ := (hnone ▸ hq.issued).exists_holder hpos
  obtain ⟨h,q',run,hguarded,hlength,hvacates,hqueue⟩ := leave_soon hu
  refine ⟨h,q',run,hlength,?_,hqueue,fun t ht => ?_⟩
  · rw [hvacates.semaphore]
    exact Nat.succ_pos _
  · have hne : u ≠ t := by
      rintro rfl
      exact ht hu
    exact ⟨othersGoOn_of_guarded hne hguarded,hvacates.others t hne.symm⟩

/-- The first request in the queue of the slots takes a free one. -/
theorem slot_taken (hq : q.Valid maxConcurrent) (hfree : 0 < q.execs.semaphore)
    (hqueue : q.queue .slots = u :: rest) : ∃ q', q.step (.resume u .ok) = some q' ∧ q'.HasSlot u ∧
      q'.queue .slots = rest ∧ (∀ s, q'.queue (.lock s) = q.queue (.lock s)) ∧
        q'.execs.lock = q.execs.lock ∧ (q'.execs.exec u).session = (q.execs.exec u).session := by
  have hline : q.line u = some .slots :=
    hq.queues.mem_iff.mp (by rw [hqueue]; exact List.mem_cons_self)
  have hpc := Execution.line_eq_slots.mp hline
  let m : Executions := {q.execs.setPc u .snapshot with semaphore := q.execs.semaphore-1}
  have hexec : m.exec u = {q.execs.exec u with pc := .snapshot} :=
    (Executions.set_exec q.execs u u _).trans (if_pos rfl)
  have hrejoin := rejoin_left (m := m) hline (by rw [hexec]; rfl)
  refine ⟨⟨m,q.rejoin u m⟩,step_eq_some.mpr ⟨?_,m,?_,rfl⟩,?_,?_,fun s => ?_,rfl,?_⟩
  · simp [turn,hline,hqueue]
  · simp only [Executions.step,Executions.resume,hpc,if_pos hfree]
    rfl
  · change (m.exec u).pc.holdsSlot = true
    rw [hexec]
    rfl
  · change q.rejoin u m .slots = rest
    rw [hrejoin,hqueue,List.erase_cons_head]
  · exact (hrejoin _).trans (hq.queues.erase_other (by simp [hline]))
  · rw [hexec]

/-- A request that has staged its attachments joins the queue of the slots. -/
theorem slot_awaited (hq : q.Valid maxConcurrent) (hpc : (q.execs.exec u).pc = .commit) :
    ∃ q', q.step (.resume u .ok) = some q' ∧ q'.queue .slots = q.queue .slots ++ [u] ∧
      (∀ s, q'.queue (.lock s) = q.queue (.lock s)) ∧
        (q'.execs.exec u).session = (q.execs.exec u).session := by
  have hline : q.line u = none := by simp [line,Execution.line,hpc]
  let m := q.execs.setPc u .acquireSlot
  have hexec : m.exec u = {q.execs.exec u with pc := .acquireSlot} :=
    (Executions.set_exec q.execs u u _).trans (if_pos rfl)
  have hline' : (m.exec u).line = some .slots := by rw [hexec]; rfl
  refine ⟨⟨m,q.rejoin u m⟩,step_eq_some.mpr ⟨by simp [turn,hline],m,?_,rfl⟩,?_,fun s => ?_,?_⟩
  · simp only [Executions.step,Executions.resume,hpc,if_true]
    rfl
  · simp [rejoin,hline,hline']
  · have hother := hq.queues.erase_other (t := u) (l := .lock s) (by simp [hline])
    simpa [rejoin,hline,hline'] using hother
  · rw [hexec]

/-- A request in the queue of the slots comes to the front of it soon, and a slot is free then: it
takes a slot to be left, taken and left again for each of those before it. -/
theorem slot_turn (hpos : 0 < maxConcurrent) (hq : q.Valid maxConcurrent)
    (hqueue : q.queue .slots = ahead ++ u :: rest) : ∃ h q', Run step q h q' ∧
      h.length ≤ 8*ahead.length+7 ∧ 0 < q'.execs.semaphore ∧ q'.queue .slots = u :: rest ∧
        (∀ s, q'.queue (.lock s) = q.queue (.lock s)) ∧
          ∀ t, t ∉ ahead → ¬q.HasSlot t → Stays t q q' h := by
  induction ahead generalizing q with
  | nil =>
    obtain ⟨h,q',run,hlength,hfree,hsame,hstays⟩ := slot_soon hpos hq
    exact ⟨h,q',run,hlength,hfree,hsame ▸ hqueue,fun s => by rw [hsame],fun t _ => hstays t⟩
  | cons v ahead ih =>
    obtain ⟨h₁,q₁,run₁,hlength₁,hfree,hsame,hstays₁⟩ := slot_soon hpos hq
    have hq₁ := hq.run run₁
    obtain ⟨q₂,hstep,-,hslots,hlocks,-⟩ := slot_taken hq₁ hfree (hsame ▸ hqueue)
    obtain ⟨h₃,q',run₃,hlength₃,hfree',hslots',hlocks',hstays₃⟩ := ih (hq₁.next hstep) hslots
    refine ⟨h₃ ++ ((q₁,.resume v .ok) :: h₁),q',(run₁.next hstep).trans run₃,?_,hfree',hslots',?_,
      fun t hmem ht => ?_⟩
    · simp only [List.length_append,List.length_cons]
      omega
    · exact fun s => by rw [hlocks',hlocks,hsame]
    · obtain ⟨hne,hmem⟩ := not_or.mp (List.mem_cons.not.mp hmem)
      have hs₂ := (hstays₁ t ht).trans (stays_resume (Ne.symm hne) hstep)
      exact hs₂.trans (hstays₃ t hmem (hs₂.hasSlot.not.mpr ht))

/-- At most `n` requests wait for a slot beside the owner of the lock. -/
def Crowded (q : QueuedExecutions) (s : Ref) (n : ℕ) : Prop :=
  ((q.queue .slots).filter fun u => q.execs.lock s ≠ some u).length ≤ n

/-- The owner of a lock that waits for a slot leaves both soon. -/
theorem owner_leaves (hpos : 0 < maxConcurrent) (hq : q.Valid maxConcurrent)
    (hqueue : q.queue .slots = ahead ++ u :: rest) : ∃ h q', Run step q h q' ∧
      h.length ≤ 8*ahead.length+15 ∧ q'.execs.lock (q.execs.exec u).session = none ∧
        q'.queue .slots = rest ∧ (∀ s, q'.queue (.lock s) = q.queue (.lock s)) ∧
          ∀ t, (q.execs.exec t).pc = .acquireLock → Stays t q q' h := by
  have hline : q.line u = some .slots := hq.queues.mem_iff.mp (by simp [hqueue])
  have hahead := hq.queues.not_mem_ahead hqueue
  obtain ⟨h₁,q₁,run₁,hlength₁,hfree,hslots₁,hlocks₁,hstays₁⟩ := slot_turn hpos hq hqueue
  obtain ⟨q₂,hstep,hslot,hslots₂,hlocks₂,-,hsession⟩ := slot_taken (hq.run run₁) hfree hslots₁
  obtain ⟨h₃,q',run₃,hguarded,hlength₃,hvacates,hsame⟩ := leave_soon hslot
  rw [(hstays₁ u hahead (not_hasSlot hline)).exec] at hsession
  refine ⟨h₃ ++ ((q₁,.resume u .ok) :: h₁),q',(run₁.next hstep).trans run₃,?_,?_,hsame ▸ hslots₂,
    fun s => by rw [hsame,hlocks₂,hlocks₁],fun t ht => ?_⟩
  · simp only [List.length_append,List.length_cons]
    omega
  · rw [hvacates.lock,hsession,if_pos rfl]
  · have hlinet : q.line t = some (.lock (q.execs.exec t).session) :=
      Execution.line_eq_lock.mpr ⟨ht,rfl⟩
    have hne : u ≠ t := by
      rintro rfl
      cases hline.symm.trans hlinet
    have hmem : t ∉ ahead := fun hmem => by
      have hslots := hq.queues.mem_iff.mp
        (by rw [hqueue]; exact List.mem_append_left _ hmem : t ∈ q.queue .slots)
      cases hslots.symm.trans hlinet
    exact ((hstays₁ t hmem (not_hasSlot hlinet)).trans (stays_resume hne hstep)).trans
      ⟨othersGoOn_of_guarded hne hguarded,hvacates.others t hne.symm⟩

/-- The lock of a session becomes free soon, whether its owner stages attachments, waits for a slot
or has one. -/
theorem lock_soon (hpos : 0 < maxConcurrent) (hq : q.Valid maxConcurrent) (hn : q.Crowded s n) :
    ∃ h q', Run step q h q' ∧ h.length ≤ 8*n+16 ∧ q'.execs.lock s = none ∧
      (q'.queue .slots).length ≤ n ∧ (∀ s, q'.queue (.lock s) = q.queue (.lock s)) ∧
        ∀ t, (q.execs.exec t).pc = .acquireLock → Stays t q q' h := by
  unfold Crowded at hn
  cases hlock : q.execs.lock s with
  | none =>
    refine ⟨[],q,.start,Nat.zero_le _,hlock,?_,fun _ => rfl,fun t _ => .refl t q⟩
    simpa [hlock] using hn
  | some u =>
    obtain ⟨hholds,rfl⟩ := (hq.sound.locks u s).mp hlock
    have hbeside (l : List TaskId) : (l.filter fun v => q.execs.lock (q.execs.exec u).session ≠
        some v) = l.filter fun v => u ≠ v := by
      simp [hlock]
    rw [hbeside] at hn
    have hout (hline : q.line u ≠ some .slots) : (q.queue .slots).length ≤ n := by
      rwa [List.filter_eq_self.mpr fun v hv => ?_] at hn
      have hmem := hq.queues.mem_iff.mp hv
      refine decide_eq_true fun he => hline ?_
      rwa [he]
    by_cases hslot : q.HasSlot u
    · obtain ⟨h,q',run,hguarded,hlength,hvacates,hsame⟩ := leave_soon hslot
      refine ⟨h,q',run,hlength.trans (by omega),by rw [hvacates.lock,if_pos rfl],?_,
        fun s => by rw [hsame],fun t ht => ?_⟩
      · rw [hsame]
        exact hout fun hline => not_hasSlot hline hslot
      · have hne : u ≠ t := by
          rintro rfl
          exact not_hasSlot (Execution.line_eq_lock.mpr ⟨ht,rfl⟩) hslot
        exact ⟨othersGoOn_of_guarded hne hguarded,hvacates.others t hne.symm⟩
    cases hpc : (q.execs.exec u).pc with
    | acquireSlot =>
      have hmem : u ∈ q.queue .slots := hq.queues.mem_iff.mpr (Execution.line_eq_slots.mpr hpc)
      obtain ⟨ahead,rest,hqueue⟩ := List.append_of_mem hmem
      obtain ⟨h,q',run,hlength,hfree,hslots,hlocks,hstays⟩ := owner_leaves hpos hq hqueue
      have hsum : ahead.length + rest.length ≤ n := by
        have hnodup := hq.queues.nodup .slots
        rw [hqueue,List.nodup_append,List.nodup_cons] at hnodup
        obtain ⟨-,⟨hrest,-⟩,hdisjoint⟩ := hnodup
        have hkeep {l : List TaskId} (hu : u ∉ l) : (l.filter fun v => u ≠ v) = l :=
          List.filter_eq_self.mpr fun v hv => decide_eq_true fun he => hu (he ▸ hv)
        rw [hqueue,List.filter_append,List.filter_cons_of_neg (by simp),
          hkeep fun hu => hdisjoint u hu u List.mem_cons_self rfl,hkeep hrest,
          List.length_append] at hn
        exact hn
      refine ⟨h,q',run,by omega,hfree,?_,hlocks,hstays⟩
      rw [hslots]
      omega
    | commit =>
      obtain ⟨q₁,hstep,hqueue,hlocks₁,hsession⟩ := slot_awaited hq hpc
      obtain ⟨h,q',run,hlength,hfree,hslots,hlocks,hstays⟩ :=
        owner_leaves hpos (hq.next hstep) hqueue
      have hlength' := hout (by simp [line,Execution.line,hpc])
      refine ⟨h ++ [(q,.resume u .ok)],q',(Run.start.next hstep).trans run,?_,hsession ▸ hfree,
        by simp [hslots],fun s => (hlocks s).trans (hlocks₁ s),fun t ht => ?_⟩
      · rw [List.length_append,List.length_singleton]
        omega
      · have hne : u ≠ t := by
          rintro rfl
          cases hpc.symm.trans ht
        have hs := stays_resume hne hstep
        exact hs.trans (hstays t (hs.exec ▸ ht))
    | _ => simp [HasSlot,Executions.HasSlot,hpc,ExecPc.holdsSlot,ExecPc.holdsLock] at hholds hslot

/-- The first request in the queue of a free lock takes it. -/
theorem lock_taken (hq : q.Valid maxConcurrent) (hfree : q.execs.lock s = none)
    (hqueue : q.queue (.lock s) = u :: rest) : ∃ q', q.step (.resume u .ok) = some q' ∧
      q'.queue (.lock s) = rest ∧ q'.queue .slots = q.queue .slots := by
  have hline : q.line u = some (.lock s) :=
    hq.queues.mem_iff.mp (by rw [hqueue]; exact List.mem_cons_self)
  obtain ⟨hpc,rfl⟩ := Execution.line_eq_lock.mp hline
  let m := (q.execs.setPc u .commit).setLock (q.execs.exec u).session (some u)
  have hexec : m.exec u = {q.execs.exec u with pc := .commit} :=
    (Executions.set_exec q.execs u u _).trans (if_pos rfl)
  have hrejoin := rejoin_left (m := m) hline (by rw [hexec]; rfl)
  refine ⟨⟨m,q.rejoin u m⟩,step_eq_some.mpr ⟨?_,m,?_,rfl⟩,?_,?_⟩
  · simp [turn,hline,hqueue]
  · simp only [Executions.step,Executions.resume,hpc,if_pos hfree]
    rfl
  · exact (hrejoin _).trans (by rw [hqueue,List.erase_cons_head])
  · exact (hrejoin _).trans (hq.queues.erase_other (by simp [hline]))

/-- A request in the queue of a lock comes to the front of it, and the lock is free then. -/
theorem lock_turn (hpos : 0 < maxConcurrent) (hq : q.Valid maxConcurrent) (hn : q.Crowded s n)
    (hqueue : q.queue (.lock s) = ahead ++ t :: rest) : ∃ h q', Run step q h q' ∧
      h.length ≤ (8*n+17)*ahead.length + (8*n+16) ∧ Stays t q q' h ∧ q'.execs.lock s = none ∧
        q'.queue (.lock s) = t :: rest := by
  have hwaits {q : QueuedExecutions} (hq : q.Valid maxConcurrent) (ht : t ∈ q.queue (.lock s)) :
      (q.execs.exec t).pc = .acquireLock :=
    (Execution.line_eq_lock.mp (hq.queues.mem_iff.mp ht)).1
  induction ahead generalizing q with
  | nil =>
    obtain ⟨h,q',run,hlength,hfree,-,hlocks,hstays⟩ := lock_soon hpos hq hn
    exact ⟨h,q',run,by simpa using hlength,hstays t (hwaits hq (by simp [hqueue])),hfree,
      (hlocks s).trans hqueue⟩
  | cons u ahead ih =>
    obtain ⟨h₁,q₁,run₁,hlength₁,hfree,hslots,hlocks,hstays⟩ := lock_soon hpos hq hn
    have hqueue₁ := (hlocks s).trans hqueue
    have hq₁ := hq.run run₁
    obtain ⟨q₂,hstep,hqueue₂,hslots₂⟩ := lock_taken hq₁ hfree hqueue₁
    have hn₂ : q₂.Crowded s n := (List.length_filter_le _ _).trans (hslots₂ ▸ hslots)
    obtain ⟨h₃,q',run₃,hlength₃,hstays₃,hfree',hqueue'⟩ := ih (hq₁.next hstep) hn₂ hqueue₂
    have hne : u ≠ t := by
      have hnodup := hq.queues.nodup (.lock s)
      rw [hqueue,List.cons_append,List.nodup_cons] at hnodup
      rintro rfl
      exact hnodup.1 (by simp)
    refine ⟨h₃ ++ ((q₁,.resume u .ok) :: h₁),q',(run₁.next hstep).trans run₃,?_,
      ((hstays t (hwaits hq (by simp [hqueue]))).trans (stays_resume hne hstep)).trans hstays₃,hfree',
      hqueue'⟩
    simp only [List.length_append,List.length_cons]
    rw [Nat.mul_add]
    omega

/-- A bound on the steps of others before a request in a queue has its turn: for a slot eight for each
of those before it and for itself, and for a lock eight for each request that waits for a slot, and
seventeen more, for each of those before it and for itself. -/
def due (q : QueuedExecutions) (t : TaskId) : Line → ℕ
  | .slots => 8 * ((q.queue .slots).idxOf t + 1)
  | .lock s => (8 * (q.queue .slots).length + 17) * ((q.queue (.lock s)).idxOf t + 1)

/-- Nobody waits in vain for a lock or a slot: from every reachable state others can go on, each from
its own await, until it is the turn of the request and it can have what it waits for. -/
theorem wait_ends (hpos : 0 < maxConcurrent) (run : Run step (init maxConcurrent) h q)
    (hwaits : q.line t = some l) : ∃ h' q', Run step q h' q' ∧ h'.length ≤ q.due t l ∧
      Guarded (OthersGoOn t) h' ∧ q'.execs.exec t = q.execs.exec t ∧
        (q'.step (.resume t .ok)).isSome = true := by
  have hq := (valid_init maxConcurrent).run run
  have hmem : t ∈ q.queue l := hq.queues.mem_iff.mpr hwaits
  obtain ⟨ahead,rest,hqueue⟩ := List.append_of_mem hmem
  have hahead : ahead.length = (q.queue l).idxOf t := by
    rw [hqueue,List.idxOf_append_of_notMem (hq.queues.not_mem_ahead hqueue),
      List.idxOf_cons_self,Nat.add_zero]
  cases l with
  | slots =>
    obtain ⟨h',q',run',hlength,hfree,hslots,-,hstays⟩ := slot_turn hpos hq hqueue
    have hs := hstays t (hq.queues.not_mem_ahead hqueue) (not_hasSlot hwaits)
    obtain ⟨q'',hstep,-⟩ := slot_taken (hq.run run') hfree hslots
    refine ⟨h',q',run',?_,hs.guarded,hs.exec,by rw [hstep]; rfl⟩
    rw [due,← hahead]
    omega
  | lock s =>
    have hn : q.Crowded s (q.queue .slots).length := List.length_filter_le _ _
    obtain ⟨h',q',run',hlength,hs,hfree,hqueue'⟩ := lock_turn hpos hq hn hqueue
    obtain ⟨q'',hstep,-⟩ := lock_taken (hq.run run') hfree hqueue'
    refine ⟨h',q',run',?_,hs.guarded,hs.exec,by rw [hstep]; rfl⟩
    rw [due,← hahead,Nat.mul_add]
    omega

/-- A request waits behind another one for the lock of a third, which waits for the only slot, while
the container that has it runs on. -/
theorem wait_ends_behind : ∃ h q h' q', Run step (init 1) h q ∧ q.execs.semaphore = 0 ∧
    q.execs.Runs 0 ∧ q.execs.lock 1 = some 1 ∧ q.queue .slots = [1] ∧ q.queue (.lock 1) = [2,3] ∧
      Run step q h' q' ∧ h'.length ≤ 50 ∧ Guarded (OthersGoOn 3) h' ∧
        q'.execs.exec 3 = q.execs.exec 3 ∧ (q'.step (.resume 3 .ok)).isSome = true := by
  have hr : replay step [] (init 1) [.request 0 0,.resume 0 .ok,.resume 0 .ok,.resume 0 .ok,
      .resume 0 .ok,.resume 0 .ok,.containerStart 0,.request 1 1,.resume 1 .ok,.resume 1 .ok,
      .request 2 1,.request 3 1] = some (_,_) := rfl
  obtain ⟨h',q',run',hends⟩ := wait_ends (t := 3) (l := .lock 1) Nat.one_pos (replay_run hr)
    (by decide)
  exact ⟨_,_,h',q',replay_run hr,by decide,by decide,by decide,by decide,by decide,run',hends⟩

end QueuedExecutions
end CodeExecutorApi
