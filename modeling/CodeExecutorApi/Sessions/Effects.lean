import CodeExecutorApi.Sessions.Steps

/-! What one step does to the registry, the project ids and the directories, and how the task that
took it is suspended again. The second half moves only locks, stamps and that task. -/
namespace CodeExecutorApi

/-- The task that takes an event; time and worker threads are none. -/
def Event.task {D A : Type} : Event D A → Option TaskId
  | .create t _ _ | .request t _ | .delete t _ | .sweep t | .resume t _ => some t
  | _ => none

/-- The session whose `locked` block a task is in: its body runs, or the removal of a delete. -/
def Pc.inside {A : Type} : Pc A → Option Ref
  | .body _ s | .remove _ s => some s
  | _ => none

@[simp] theorem Use.started_inside {A : Type} (u : Use) (s : Ref) :
    (u.started s : Pc A).inside = some s := by cases u <;> rfl

theorem Pc.holds_of_inside {A : Type} {pc : Pc A} {s : Ref} (h : pc.inside = some s) :
    pc.holds = some s := by
  cases pc <;> simp_all [Pc.inside,Pc.holds]

/-- The session a task is in `_delete` of. -/
def Pc.deleting {A : Type} : Pc A → Option Ref
  | .remove _ s | .deletion _ _ s _ => some s
  | _ => none

namespace Manager
variable {D A : Type}

/-- From `m` to `m'` only locks, stamps and the await of one task may differ. -/
structure Frame (actor : Option TaskId) (m m' : Manager D A) : Prop where
  sessions : m'.sessions = m.sessions
  next : m'.next = m.next
  nextProjectId : m'.nextProjectId = m.nextProjectId
  freeProjectIds : m'.freeProjectIds = m.freeProjectIds
  dir : m'.dir = m.dir
  abandoned : m'.abandoned = m.abandoned
  clock : m'.clock = m.clock
  id : ∀ s, (m'.heap s).id = (m.heap s).id
  projectId : ∀ s, (m'.heap s).projectId = (m.heap s).projectId
  task : ∀ t, actor ≠ some t → m'.task t = m.task t

namespace Frame
variable {actor : Option TaskId} {t : TaskId} {m m' m'' : Manager D A}

theorem refl (actor : Option TaskId) (m : Manager D A) : Frame actor m m := by constructor <;> simp

theorem trans (h : Frame actor m m') (h' : Frame actor m' m'') : Frame actor m m'' where
  sessions := h'.sessions.trans h.sessions
  next := h'.next.trans h.next
  nextProjectId := h'.nextProjectId.trans h.nextProjectId
  freeProjectIds := h'.freeProjectIds.trans h.freeProjectIds
  dir := h'.dir.trans h.dir
  abandoned := h'.abandoned.trans h.abandoned
  clock := h'.clock.trans h.clock
  id s := (h'.id s).trans (h.id s)
  projectId s := (h'.projectId s).trans (h.projectId s)
  task t ht := (h'.task t ht).trans (h.task t ht)

theorem setPc (h : Frame (some t) m m') (pc : Pc A) : Frame (some t) m (m'.setPc t pc) where
  __ := h
  task t' ht := by rw [setPc_task,if_neg fun he => ht (by rw [he]),h.task t' ht]

theorem finish (h : Frame (some t) m m') (c : Option Ref) (how : Ending) :
    Frame (some t) m (m'.finish t c how) := h.setPc _

theorem setLock (h : Frame actor m m') (s : Ref) (l : Lock) : Frame actor m (m'.setLock s l) where
  __ := h
  id r := by rw [← h.id r]; grind
  projectId r := by rw [← h.projectId r]; grind

theorem touch (h : Frame actor m m') (s : Ref) : Frame actor m (m'.touch s) where
  __ := h
  id r := by rw [← h.id r]; grind
  projectId r := by rw [← h.projectId r]; grind

theorem registered (h : Frame actor m m') (s : Ref) : m'.registered s = m.registered s :=
  registered_congr s h.sessions (h.id s)

end Frame

/-- A task is suspended again after the changes of a step, outside every `locked` block or inside
one that it has just entered and stamped. -/
inductive Settles : Option TaskId → Manager D A → Manager D A → Prop
  | untasked {m} : Settles none m m
  | outside {t m m'} (frame : Frame (some t) m m')
      (stamps : ∀ r, (m'.heap r).lastUsed = (m.heap r).lastUsed)
      (pc : (m'.task t).inside = none) : Settles (some t) m m'
  | inside {t m m'} {u : Use} {s : Ref} (frame : Frame (some t) m m') (hs : m.registered s = true)
      (stamp : (m'.heap s).lastUsed = m.clock)
      (stamps : ∀ r ≠ s, (m'.heap r).lastUsed = (m.heap r).lastUsed)
      (pc : m'.task t = u.started s) : Settles (some t) m m'

section Settles
variable {cfg : Config} {m m₁ m' : Manager D A} {t : TaskId} {u : Use} {s : Ref}

theorem Settles.frame {actor : Option TaskId} (h : Settles actor m m') : Frame actor m m' := by
  cases h with
  | untasked => exact Frame.refl _ _
  | outside frame | inside frame => exact frame

/-- Lock updates before a task is suspended change nothing else. -/
theorem Settles.after (h : Settles (some t) m₁ m') (frame : Frame (some t) m m₁)
    (stamps : ∀ r, (m₁.heap r).lastUsed = (m.heap r).lastUsed) : Settles (some t) m m' := by
  cases h with
  | outside hf hst pc => exact .outside (frame.trans hf) (fun r => (hst r).trans (stamps r)) pc
  | inside hf hs hst hsts pc =>
    refine .inside (frame.trans hf) ?_ (hst.trans frame.clock)
      (fun r hr => (hsts r hr).trans (stamps r)) pc
    rwa [frame.registered] at hs

theorem Settles.setPc {pc : Pc A} (hpc : pc.inside = none) :
    Settles (some t) m (m.setPc t pc) :=
  .outside ((Frame.refl _ m).setPc pc) (fun _ => rfl) (by rw [setPc_task,if_pos rfl,hpc])

theorem Settles.finish {c : Option Ref} {how : Ending} : Settles (some t) m (m.finish t c how) :=
  .setPc rfl

@[simp] theorem setLock_lastUsed (m : Manager D A) (s r : Ref) (l : Lock) :
    ((m.setLock s l).heap r).lastUsed = (m.heap r).lastUsed := by grind

theorem Settles.setLock {l : Lock} (h : Settles (some t) (m.setLock s l) m') :
    Settles (some t) m m' :=
  h.after ((Frame.refl _ m).setLock s l) (setLock_lastUsed m s · l)

theorem touch_lastUsed (m : Manager D A) (s r : Ref) :
    ((m.touch s).heap r).lastUsed = if r = s then m.clock else (m.heap r).lastUsed := by
  rw [touch,setSession_heap]
  split_ifs <;> rfl

theorem Settles.enters (hs : m.registered s = true) :
    Settles (some t) m ((m.touch s).setPc t (u.started s)) :=
  .inside (((Frame.refl _ m).touch s).setPc _) hs ((touch_lastUsed m s s).trans (if_pos rfl))
    (fun r hr => (touch_lastUsed m s r).trans (if_neg hr)) (by rw [setPc_task,if_pos rfl])

theorem Locks.settles (hs : m.registered s = true) (locks : Locks m t u s m') :
    Settles (some t) m m' := by
  cases locks with
  | waits =>
    apply Settles.setLock
    exact .setPc rfl
  | enters =>
    apply Settles.setLock
    exact .enters ((take_registered m t s s).trans hs)

theorem Leaves.settles {how : Ending} (leaves : Leaves m t u how m') : Settles (some t) m m' := by
  cases leaves with
  | ends | gone => exact .finish
  | cleans _ hs locks => exact locks.settles hs

theorem Enters.settles {id : SessionId} (h : Registry cfg m) (enters : Enters m t u id m') :
    Settles (some t) m m' := by
  cases enters with
  | missing _ leaves => exact leaves.settles
  | locks hid locks => exact locks.settles (h.registered_of_get hid).1

theorem Sweeps.settles {now : ℕ} {left : List Ref} (sweeps : Sweeps cfg m t now left m') :
    Settles (some t) m m' := by
  cases sweeps with
  | passed => exact .finish
  | waits | deletes =>
    apply Settles.setLock
    exact .setPc rfl

theorem Created.settles {k : Creator A} (h : Registry cfg m) (created : Created m t s k m') :
    Settles (some t) m m' := by
  cases created with
  | handedOut => exact .finish
  | seeds => exact .setPc rfl
  | executes enters => exact enters.settles h

end Settles

/-- The session whose directory a step may change without a removal ending. -/
def touching (m : Manager D A) : Event D A → Option Ref
  | .write t _ => match m.task t with
    | .body _ s => some s
    | _ => none
  | .erode t _ => (m.task t).removing
  | .abandonedErode s _ => if s ∈ m.abandoned then some s else none
  | .resume t _ => match m.task t with
    | .undoCreate s | .seed s _ => some s
    | _ => none
  | _ => none

section Tasks
variable {m m' : Manager D A} {t : TaskId} {u : Use} {s : Ref} {P : Pc A → Prop}

theorem Locks.task (hacquire : ∀ u s, P (.acquire u s)) (hstarted : ∀ u s, P (Use.started u s))
    (locks : Locks m t u s m') : P (m'.task t) := by
  cases locks <;> rw [setPc_task,if_pos rfl]
  case waits => exact hacquire u s
  case enters => exact hstarted u s

/-- Leaving a block ends at one of three kinds of await. -/
theorem Leaves.task (hacquire : ∀ u s, P (.acquire u s)) (hstarted : ∀ u s, P (Use.started u s))
    (hdone : ∀ c how, P (.done c how)) {how : Ending} (leaves : Leaves m t u how m') :
    P (m'.task t) := by
  cases leaves with
  | ends | gone =>
    rw [finish,setPc_task,if_pos rfl]
    exact hdone _ _
  | cleans _ _ locks => exact locks.task hacquire hstarted

theorem Enters.task (hacquire : ∀ u s, P (.acquire u s)) (hstarted : ∀ u s, P (Use.started u s))
    (hdone : ∀ c how, P (.done c how)) {id : SessionId} (enters : Enters m t u id m') :
    P (m'.task t) := by
  cases enters with
  | missing _ leaves => exact leaves.task hacquire hstarted hdone
  | locks _ locks => exact locks.task hacquire hstarted

theorem Created.task (hacquire : ∀ u s, P (.acquire u s)) (hstarted : ∀ u s, P (Use.started u s))
    (hdone : ∀ c how, P (.done c how)) {k : Creator A}
    (hseed : ∀ parts, k = .handleCreateSession (some parts) → P (.seed s parts))
    (created : Created m t s k m') : P (m'.task t) := by
  cases created with
  | handedOut =>
    rw [finish,setPc_task,if_pos rfl]
    exact hdone _ _
  | seeds =>
    rw [setPc_task,if_pos rfl]
    exact hseed _ rfl
  | executes enters => exact enters.task hacquire hstarted hdone

end Tasks

/-- The changes a step makes, before the task that took it is suspended again. -/
inductive Effect (fs : Storage D A) (cfg : Config) (m : Manager D A) :
    Event D A → Manager D A → Prop
  | none {e} : Effect fs cfg m e m
  | tick {d} : Effect fs cfg m (.tick d) { m with clock := m.clock+d }
  | dir {e s d} (hs : m.touching e = some s) (present : d.isSome = true → (m.dir s).isSome = true)
      (kept : d.isSome = true ∨ ∃ t, m.task t = .undoCreate s) : Effect fs cfg m e (m.setDir s d)
  | abandonedEnd {s removed} (hs : s ∈ m.abandoned) : Effect fs cfg m (.abandonedEnd s removed)
      { m.setDir s (if removed then Option.none else m.dir s) with
        abandoned := m.abandoned.erase s }
  | abandon {t s} (pc : m.task t = .undoCreate s) :
      Effect fs cfg m (.resume t .cancelled) (m.abandon s)
  | mkdtemp {t k ok} : Effect fs cfg m (.create t k ok) (m.mkdtemp fs)
  | made {t k ok p m₁} (room : m.sessions.length < cfg.maxSessions)
      (allocated : (m.mkdtemp fs).allocateProjectId = some (p,m₁)) :
      Effect fs cfg m (.create t k ok) (m₁.register m.next (m.newSession cfg (some p)))
  | plain {t k ok} (room : m.sessions.length < cfg.maxSessions) :
      Effect fs cfg m (.create t k ok)
        ((m.mkdtemp fs).register m.next (m.newSession cfg Option.none))
  | undo {t k s sig} (pc : m.task t = .applyQuota k s) (hsig : sig ≠ .ok) :
      Effect fs cfg m (.resume t sig) ((m.pop s).releaseProjectId (m.heap s).projectId)
  | removed {t s sig} (pc : (m.task t).deleting = some s) :
      Effect fs cfg m (.resume t sig) (m.afterRemoval s sig)

theorem Effect.task {fs : Storage D A} {cfg : Config} {m m₁ : Manager D A} {e : Event D A}
    (effect : Effect fs cfg m e m₁) : m₁.task = m.task := by
  cases effect with
  | none | tick | dir | abandonedEnd | abandon | mkdtemp | plain => rfl
  | made _ allocated =>
    obtain ⟨free,nextId,rfl⟩ := allocateProjectId_frame allocated
    rfl
  | undo => rw [releaseProjectId_eq]; rfl
  | removed =>
    obtain ⟨free,dir,abandoned,he⟩ := afterRemoval_frame m _ _
    rw [he]
    rfl

/-- Objects made before the step are as they were. -/
theorem Effect.heap {fs : Storage D A} {cfg : Config} {m m₁ : Manager D A} {e : Event D A}
    (effect : Effect fs cfg m e m₁) {s : Ref} (hs : s < m.next) : m₁.heap s = m.heap s := by
  have hne : s ≠ m.next := Nat.ne_of_lt hs
  cases effect with
  | none | tick | dir | abandonedEnd | abandon | mkdtemp => rfl
  | made _ allocated =>
    obtain ⟨free,nextId,rfl⟩ := allocateProjectId_frame allocated
    rw [register,setSession_heap,if_neg hne]
    rfl
  | plain => rw [register,setSession_heap,if_neg hne]; rfl
  | undo => rw [releaseProjectId_eq]; rfl
  | removed =>
    obtain ⟨free,dir,abandoned,he⟩ := afterRemoval_frame m _ _
    rw [he]
    rfl

/-- Registering the new object adds it to the registered ones. -/
theorem made_registered {fs : Storage D A} {cfg : Config} {m m₁ : Manager D A} {p : ℕ}
    (h : Registry cfg m) (allocated : (m.mkdtemp fs).allocateProjectId = some (p,m₁))
    (q : Option ℕ) (r : Ref) : (m₁.register m.next (m.newSession cfg q)).registered r = true ↔
      m.registered r = true ∨ r = m.next := by
  obtain ⟨free,nextId,rfl⟩ := allocateProjectId_frame allocated
  apply h.register_registered <;> rfl

theorem plain_registered (fs : Storage D A) {cfg : Config} {m : Manager D A} (h : Registry cfg m)
    (r : Ref) : ((m.mkdtemp fs).register m.next (m.newSession cfg none)).registered r = true ↔
      m.registered r = true ∨ r = m.next := by
  apply h.register_registered <;> rfl

/-- A step registers at most the object it makes, and that object was not made before. -/
theorem Effect.forward {fs : Storage D A} {cfg : Config} {m m₁ : Manager D A} {e : Event D A}
    (h : Registry cfg m) (effect : Effect fs cfg m e m₁) : Forward m m₁ := by
  have hpop (s : Ref) : Forward m (m.pop s) :=
    ⟨Nat.le_refl _,fun r _ hr => ((h.pop_registered s r).mp hr).1⟩
  cases effect with
  | none | tick | dir | abandonedEnd | abandon => exact ⟨Nat.le_refl _,fun _ _ hr => hr⟩
  | mkdtemp => exact ⟨Nat.le_succ _,fun _ _ hr => hr⟩
  | made _ allocated =>
    refine ⟨?_,fun r hlt hr => ?_⟩
    · obtain ⟨free,nextId,rfl⟩ := allocateProjectId_frame allocated
      exact Nat.le_succ _
    · exact ((made_registered h allocated _ r).mp hr).resolve_right (Nat.ne_of_lt hlt)
  | plain =>
    refine ⟨Nat.le_succ _,fun r hlt hr => ?_⟩
    exact ((plain_registered fs h r).mp hr).resolve_right (Nat.ne_of_lt hlt)
  | undo => rw [releaseProjectId_eq]; exact hpop _
  | removed =>
    obtain ⟨free,dir,abandoned,he⟩ := afterRemoval_frame m _ _
    rw [he]
    exact hpop _

theorem Frame.forward {actor : Option TaskId} {m m₁ m' : Manager D A} (hf : Frame actor m₁ m')
    (h : Forward m m₁) : Forward m m' :=
  ⟨hf.next ▸ h.1,fun s hlt hr => h.2 s hlt (by rwa [hf.registered] at hr)⟩

theorem Resumes.effect {fs : Storage D A} {cfg : Config} {m m' : Manager D A} {t : TaskId}
    {sig : Signal} (h : Registry cfg m) (resumes : Resumes fs cfg m t sig m') :
    ∃ m₁, Effect fs cfg m (.resume t sig) m₁ ∧ Settles (some t) m₁ m' := by
  cases resumes with
  | quotaSet _ created => exact ⟨m,.none,created.settles h⟩
  | quotaFailed pc hsig => exact ⟨_,.undo pc hsig,.setPc rfl⟩
  | undone pc => exact ⟨_,.dir (by rw [touching,pc]) (by simp) (.inr ⟨t,pc⟩),.finish⟩
  | undoAbandoned pc => exact ⟨_,.abandon pc,.finish⟩
  | undoFailed | seedCancelled | seeded | seedFailed => exact ⟨m,.none,.finish⟩
  | seedPart pc dir =>
    exact ⟨_,.dir (by rw [touching,pc]) (fun _ => by rw [dir]; rfl) (.inl rfl),.setPc rfl⟩
  | seedCleans _ _ hs locks => exact ⟨m,.none,locks.settles hs⟩
  | entered _ _ hs => exact ⟨m,.none,(Settles.enters ((take_registered m t _ _).trans hs)).setLock⟩
  | retired _ _ _ leaves => exact ⟨m,.none,leaves.settles.setLock.setLock⟩
  | waitedTooLong _ leaves | waitCancelled _ leaves | left _ leaves =>
    exact ⟨m,.none,leaves.settles.setLock⟩
  | removed pc leaves => exact ⟨_,.removed (by rw [pc]; rfl),leaves.settles.setLock⟩
  | swept => exact ⟨m,.none,Settles.setLock (.setPc rfl)⟩
  | skipped _ _ _ sweeps => exact ⟨m,.none,sweeps.settles.setLock.setLock⟩
  | passed _ sweeps | sweepWent _ _ sweeps => exact ⟨m,.none,sweeps.settles.setLock⟩
  | sweepCancelled | sweepEnded => exact ⟨m,.none,Settles.setLock .finish⟩
  | shielded => exact ⟨m,.none,.setPc rfl⟩
  | deleted pc => exact ⟨_,.removed (by rw [pc]; rfl),.setPc rfl⟩

/-- Every step is one of the effects, then the task that takes the event is suspended again. -/
theorem Steps.effect {fs : Storage D A} {cfg : Config} {m m' : Manager D A} {e : Event D A}
    (h : Registry cfg m) (steps : Steps fs cfg m e m') :
    ∃ m₁, Effect fs cfg m e m₁ ∧ Settles e.task m₁ m' := by
  cases steps with
  | tick => exact ⟨_,.tick,.untasked⟩
  | create idle creates =>
    cases creates with
    | refused => exact ⟨m,.none,.finish⟩
    | exhausted => exact ⟨_,.mkdtemp,.finish⟩
    | quota room allocated => exact ⟨_,.made room allocated,.setPc rfl⟩
    | plain room created => exact ⟨_,.plain room,created.settles (h.made fs none)⟩
  | request _ enters | delete _ enters => exact ⟨m,.none,enters.settles h⟩
  | sweep _ sweeps => exact ⟨m,.none,sweeps.settles⟩
  | resume resumes => exact resumes.effect h
  | write pc hd => exact ⟨_,.dir (by rw [touching,pc]) (fun _ => hd) (.inl rfl),.untasked⟩
  | erode pc hd => exact ⟨_,.dir pc (fun _ => hd) (.inl rfl),.untasked⟩
  | abandonedErode hs hd =>
    exact ⟨_,.dir (by rw [touching,if_pos hs]) (fun _ => hd) (.inl rfl),.untasked⟩
  | abandonedEnd hs => exact ⟨_,.abandonedEnd hs,.untasked⟩

theorem Steps.forward {fs : Storage D A} {cfg : Config} {m m' : Manager D A} {e : Event D A}
    (h : Registry cfg m) (steps : Steps fs cfg m e m') : Forward m m' := by
  obtain ⟨m₁,effect,settles⟩ := steps.effect h
  exact settles.frame.forward (effect.forward h)

/-- A task that has begun only goes on from its await. -/
theorem Steps.resumes {fs : Storage D A} {cfg : Config} {m m' : Manager D A} {e : Event D A}
    (steps : Steps fs cfg m e m') {t : TaskId} (ht : e.task = some t) (hi : m.task t ≠ .idle) :
    ∃ sig, e = .resume t sig ∧ Resumes fs cfg m t sig m' := by
  cases steps <;> cases ht
  case resume sig resumes => exact ⟨sig,rfl,resumes⟩
  all_goals contradiction

/-- A step leaves the tasks alone that do not take it. -/
theorem Steps.others {fs : Storage D A} {cfg : Config} {m m' : Manager D A} {e : Event D A}
    (h : Registry cfg m) (steps : Steps fs cfg m e m') {t : TaskId} (ht : e.task ≠ some t) :
    m'.task t = m.task t := by
  obtain ⟨m₁,effect,settles⟩ := steps.effect h
  rw [settles.frame.task t ht,effect.task]

end Manager
end CodeExecutorApi
