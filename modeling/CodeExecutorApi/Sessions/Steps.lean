import CodeExecutorApi.Sessions.Registry

/-! What a task can do from one await to the next: ask for a lock, leave a `locked` block, go on
with a sweep. Every invariant of the manager is derived from these case lists. -/
namespace CodeExecutorApi

namespace Manager
variable {D A : Type}

/-- Asking for the lock of a registered session: wait in the queue, or begin the block. -/
inductive Locks (m : Manager D A) (t : TaskId) (u : Use) (s : Ref) : Manager D A → Prop
  | waits (busy : (m.heap s).lock.free = false) :
      Locks m t u s ((m.enqueue t s).setPc t (.acquire u s))
  | enters (free : (m.heap s).lock.free = true) :
      Locks m t u s (((m.take t s).touch s).setPc t (u.started s))

/-- Leaving a `locked` block, the lock given back. -/
inductive Leaves (m : Manager D A) (t : TaskId) (u : Use) (how : Ending) : Manager D A → Prop
  | ends (hu : ∀ s, u ≠ .execute s) : Leaves m t u how (m.finish t u.created how)
  | gone {s} (hu : u = .execute s) (hs : m.registered s = false) :
      Leaves m t u how (m.finish t (some s) how)
  | cleans {s m'} (hu : u = .execute s) (hs : m.registered s = true)
      (locks : Locks m t (.cleanup s) s m') : Leaves m t u how m'

/-- Entering `locked(id)`. -/
inductive Enters (m : Manager D A) (t : TaskId) (u : Use) (id : SessionId) : Manager D A → Prop
  | missing {m'} (hid : m.get id = none) (leaves : Leaves m t u .sessionNotFound m') :
      Enters m t u id m'
  | locks {s m'} (hid : m.get id = some s) (locks : Locks m t u s m') : Enters m t u id m'

/-- A sweep comes to `s`: what stands before it in the snapshot is free and not expired. -/
def Reaches (cfg : Config) (m : Manager D A) (now : ℕ) (left : List Ref) (s : Ref)
    (rest : List Ref) : Prop :=
  ∃ passed, left = passed ++ s::rest ∧
    ∀ r ∈ passed, (m.heap r).lock.free = true ∧ m.expired cfg now r = false

/-- Going on with a sweep, no lock held, over what is left of its snapshot. -/
inductive Sweeps (cfg : Config) (m : Manager D A) (t : TaskId) (now : ℕ) (left : List Ref) :
    Manager D A → Prop
  | passed : Sweeps cfg m t now left (m.finish t none .finished)
  | waits {s rest} (reaches : Reaches cfg m now left s rest)
      (busy : (m.heap s).lock.free = false) :
      Sweeps cfg m t now left ((m.enqueue t s).setPc t (.tryAcquire now s rest))
  | deletes {s rest} (reaches : Reaches cfg m now left s rest)
      (free : (m.heap s).lock.free = true)
      (expired : m.expired cfg now s = true) :
      Sweeps cfg m t now left ((m.take t s).setPc t (.deletion false now s rest))

/-- `create` returned to its caller. -/
inductive Created (m : Manager D A) (t : TaskId) (s : Ref) : Creator A → Manager D A → Prop
  | handedOut {k} (hk : k = .create ∨ k = .handleCreateSession none) :
      Created m t s k (m.finish t (some s) .handedOut)
  | seeds {parts} : Created m t s (.handleCreateSession (some parts)) (m.setPc t (.seed s parts))
  | executes {m'} (enters : Enters m t (.execute s) (m.heap s).id m') :
      Created m t s .handleExecute m'

/-- `create` up to its first await. -/
inductive Creates (fs : Storage D A) (cfg : Config) (m : Manager D A) (t : TaskId) (k : Creator A) :
    Manager D A → Prop
  | refused {how} (hh : how ≠ .handedOut) : Creates fs cfg m t k (m.finish t none how)
  | exhausted : Creates fs cfg m t k ((m.mkdtemp fs).finish t none .failed)
  | quota {p m₁} (room : m.sessions.length < cfg.maxSessions)
      (allocated : (m.mkdtemp fs).allocateProjectId = some (p,m₁)) :
      Creates fs cfg m t k
        ((m₁.register m.next (m.newSession cfg (some p))).setPc t (.applyQuota k m.next))
  | plain {m'} (room : m.sessions.length < cfg.maxSessions)
      (created : Created ((m.mkdtemp fs).register m.next (m.newSession cfg none)) t m.next k m') :
      Creates fs cfg m t k m'

/-- A task going on from its await. -/
inductive Resumes (fs : Storage D A) (cfg : Config) (m : Manager D A) (t : TaskId) :
    Signal → Manager D A → Prop
  | quotaSet {k s m'} (pc : m.task t = .applyQuota k s) (created : Created m t s k m') :
      Resumes fs cfg m t .ok m'
  | quotaFailed {k s sig} (pc : m.task t = .applyQuota k s) (hsig : sig ≠ .ok) :
      Resumes fs cfg m t sig (m.undo t s)
  | undone {s} (pc : m.task t = .undoCreate s) :
      Resumes fs cfg m t .ok ((m.setDir s none).finish t (some s) .failed)
  | undoAbandoned {s} (pc : m.task t = .undoCreate s) :
      Resumes fs cfg m t .cancelled ((m.abandon s).finish t (some s) .cancelled)
  | undoFailed {s sig} (pc : m.task t = .undoCreate s) (hsig : sig ≠ .ok ∧ sig ≠ .cancelled) :
      Resumes fs cfg m t sig (m.finish t (some s) .failed)
  | seedCancelled {s parts} (pc : m.task t = .seed s parts) :
      Resumes fs cfg m t .cancelled (m.finish t (some s) .cancelled)
  | seeded {s} (pc : m.task t = .seed s []) :
      Resumes fs cfg m t .ok (m.finish t (some s) .handedOut)
  | seedPart {s a parts d d'} (pc : m.task t = .seed s (a::parts)) (dir : m.dir s = some d)
      (act : fs.act a d = some d') :
      Resumes fs cfg m t .ok ((m.setDir s (some d')).setPc t (.seed s parts))
  | seedFailed {s parts sig} (pc : m.task t = .seed s parts) (hsig : sig ≠ .cancelled)
      (hs : m.registered s = false) :
      Resumes fs cfg m t sig (m.finish t (some s) .sessionNotFound)
  | seedCleans {s parts sig m'} (pc : m.task t = .seed s parts) (hsig : sig ≠ .cancelled)
      (hs : m.registered s = true) (locks : Locks m t (.cleanup s) s m') : Resumes fs cfg m t sig m'
  | entered {u s} (pc : m.task t = .acquire u s) (granted : m.granted t s = true)
      (hs : m.registered s = true) :
      Resumes fs cfg m t .ok (((m.take t s).touch s).setPc t (u.started s))
  | retired {u s m'} (pc : m.task t = .acquire u s) (granted : m.granted t s = true)
      (hs : m.registered s = false)
      (leaves : Leaves ((m.take t s).unlock s) t u .sessionNotFound m') : Resumes fs cfg m t .ok m'
  | waitedTooLong {u s m'} (pc : m.task t = .acquire u s)
      (leaves : Leaves (m.dequeue t s) t u .sessionLockTimeout m') : Resumes fs cfg m t .timeout m'
  | waitCancelled {u s m'} (pc : m.task t = .acquire u s)
      (leaves : Leaves (m.dequeue t s) t u .cancelled m') : Resumes fs cfg m t .cancelled m'
  | left {u s sig m'} (pc : m.task t = .body u s)
      (leaves : Leaves (m.unlock s) t u (if sig = .cancelled then .cancelled else .finished) m') :
      Resumes fs cfg m t sig m'
  | removed {u s sig m'} (pc : m.task t = .remove u s)
      (leaves : Leaves ((m.afterRemoval s sig).unlock s) t u (removalEnding sig) m') :
      Resumes fs cfg m t sig m'
  | swept {now s rest} (pc : m.task t = .tryAcquire now s rest) (granted : m.granted t s = true)
      (expired : m.expired cfg now s = true) :
      Resumes fs cfg m t .ok ((m.take t s).setPc t (.deletion false now s rest))
  | skipped {now s rest m'} (pc : m.task t = .tryAcquire now s rest)
      (granted : m.granted t s = true) (fresh : m.expired cfg now s = false)
      (sweeps : Sweeps cfg ((m.take t s).unlock s) t now rest m') : Resumes fs cfg m t .ok m'
  | passed {now s rest m'} (pc : m.task t = .tryAcquire now s rest)
      (sweeps : Sweeps cfg (m.dequeue t s) t now rest m') : Resumes fs cfg m t .timeout m'
  | sweepCancelled {now s rest} (pc : m.task t = .tryAcquire now s rest) :
      Resumes fs cfg m t .cancelled ((m.dequeue t s).finish t none .cancelled)
  | shielded {now s rest} (pc : m.task t = .deletion false now s rest) :
      Resumes fs cfg m t .cancelled (m.setPc t (.deletion true now s rest))
  | deleted {cancelled now s rest sig} (pc : m.task t = .deletion cancelled now s rest)
      (hsig : sig = .cancelled → cancelled = true) :
      Resumes fs cfg m t sig ((m.afterRemoval s sig).setPc t (.deleted cancelled now s rest))
  | sweepEnded {cancelled now s rest sig} (pc : m.task t = .deleted cancelled now s rest)
      (hsig : sig = .cancelled ∨ cancelled = true) :
      Resumes fs cfg m t sig ((m.unlock s).finish t none .cancelled)
  | sweepWent {now s rest sig m'} (pc : m.task t = .deleted false now s rest)
      (hsig : sig ≠ .cancelled) (sweeps : Sweeps cfg (m.unlock s) t now rest m') : Resumes fs cfg m t sig m'

/-- One step of the machine. -/
inductive Steps (fs : Storage D A) (cfg : Config) (m : Manager D A) :
    Event D A → Manager D A → Prop
  | tick {d} : Steps fs cfg m (.tick d) { m with clock := m.clock+d }
  | create {t k ok m'} (idle : m.task t = .idle) (creates : Creates fs cfg m t k m') :
      Steps fs cfg m (.create t k ok) m'
  | request {t id m'} (idle : m.task t = .idle) (enters : Enters m t .request id m') :
      Steps fs cfg m (.request t id) m'
  | delete {t id m'} (idle : m.task t = .idle) (enters : Enters m t .delete id m') :
      Steps fs cfg m (.delete t id) m'
  | sweep {t m'} (idle : m.task t = .idle)
      (sweeps : Sweeps cfg m t m.clock (m.sessions.map Prod.snd) m') : Steps fs cfg m (.sweep t) m'
  | resume {t sig m'} (resumes : Resumes fs cfg m t sig m') : Steps fs cfg m (.resume t sig) m'
  | write {t d u s} (pc : m.task t = .body u s) (present : (m.dir s).isSome = true) :
      Steps fs cfg m (.write t d) (m.setDir s (some d))
  | erode {t d s} (pc : (m.task t).removing = some s) (present : (m.dir s).isSome = true) :
      Steps fs cfg m (.erode t d) (m.setDir s (some d))
  | abandonedErode {s d} (hs : s ∈ m.abandoned) (present : (m.dir s).isSome = true) :
      Steps fs cfg m (.abandonedErode s d) (m.setDir s (some d))
  | abandonedEnd {s removed} (hs : s ∈ m.abandoned) : Steps fs cfg m (.abandonedEnd s removed)
      { m.setDir s (if removed then none else m.dir s) with abandoned := m.abandoned.erase s }

section Cases
variable {cfg : Config} {m : Manager D A} (t : TaskId) (u : Use)

theorem enter_registered (raise : Manager D A → Manager D A) {s : Ref}
    (hs : m.registered s = true) : m.enter raise t u s = (m.touch s).setPc t (u.started s) := by
  cases u <;> simp [enter,hs,Use.started]

theorem enter_unregistered (raise : Manager D A → Manager D A) {s : Ref}
    (hs : m.registered s = false) : m.enter raise t u s = raise (m.unlock s) := by
  simp [enter,hs]

theorem lockedOr_none (raise : Manager D A → Manager D A) {id : SessionId} (hid : m.get id = none) :
    m.lockedOr raise t u id = raise m := by simp [lockedOr,hid]

theorem lockedOr_some (h : Registry cfg m) (raise : Manager D A → Manager D A) {id : SessionId}
    {s : Ref} (hid : m.get id = some s) : Locks m t u s (m.lockedOr raise t u id) := by
  have hr := (h.registered_of_get hid).1
  cases hf : (m.heap s).lock.free with
  | false => simpa [lockedOr,hid,hf] using Locks.waits hf
  | true =>
    have he : (m.take t s).enter raise t u s = ((m.take t s).touch s).setPc t (u.started s) :=
      enter_registered t u raise (by simpa using hr)
    simpa [lockedOr,hid,hf,he] using Locks.enters hf

/-- The delete a handler issues finds its own session or none. -/
theorem cleanUp_cases (h : Registry cfg m) (s : Ref) (gone : Ending) :
    (m.registered s = false ∧ m.cleanUp t s gone = m.finish t (some s) gone) ∨
      (m.registered s = true ∧ Locks m t (.cleanup s) s (m.cleanUp t s gone)) := by
  cases hg : m.get (m.heap s).id with
  | none => exact .inl ⟨by simp [registered,hg],lockedOr_none t _ _ hg⟩
  | some r =>
    have hid := (h.registered_of_get hg).2
    rw [h.ids] at hid
    obtain rfl := cfg.token_injective hid
    exact .inr ⟨(h.registered_of_get hg).1,lockedOr_some t _ h _ hg⟩

theorem leave_cases (h : Registry cfg m) (how : Ending) : Leaves m t u how (m.leave t u how) := by
  cases u with
  | request | delete | cleanup => exact .ends (by simp)
  | execute s =>
    rcases cleanUp_cases t h s how with ⟨hr,he⟩ | ⟨hr,hl⟩
    · rw [leave,he]
      exact .gone rfl hr
    · exact .cleans rfl hr hl

theorem locked_cases (h : Registry cfg m) (id : SessionId) : Enters m t u id (m.locked t u id) := by
  cases hg : m.get id with
  | none =>
    rw [locked,lockedOr_none t u _ hg]
    exact .missing hg (leave_cases t u h _)
  | some s => exact .locks hg (lockedOr_some t u h _ hg)

theorem Reaches.suffix {now : ℕ} {left : List Ref} {s : Ref} {rest : List Ref}
    (h : Reaches cfg m now left s rest) : s::rest <:+ left := by
  obtain ⟨passed,rfl,-⟩ := h
  exact List.suffix_append _ _

theorem Reaches.cons {now : ℕ} {left : List Ref} {s r : Ref} {rest : List Ref}
    (h : Reaches cfg m now left s rest) (hf : (m.heap r).lock.free = true)
    (he : m.expired cfg now r = false) : Reaches cfg m now (r::left) s rest := by
  obtain ⟨passed,rfl,hp⟩ := h
  exact ⟨r::passed,rfl,List.forall_mem_cons.mpr ⟨⟨hf,he⟩,hp⟩⟩

theorem sweepFrom_cases (now : ℕ) (left : List Ref) :
    Sweeps cfg m t now left (sweepFrom cfg t now left m) := by
  induction left with
  | nil => exact .passed
  | cons s rest ih =>
    rw [sweepFrom]
    split_ifs with hf he
    · exact .deletes ⟨[],rfl,by simp⟩ hf he
    · rw [take_unlock m t s hf]
      have hcons {r : Ref} {rest' : List Ref} (h : Reaches cfg m now rest r rest') :
          Reaches cfg m now (s::rest) r rest' := h.cons hf (by simpa using he)
      revert ih
      generalize sweepFrom cfg t now rest m = m'
      intro ih
      cases ih with
      | passed => exact .passed
      | waits reaches busy => exact .waits (hcons reaches) busy
      | deletes reaches free expired => exact .deletes (hcons reaches) free expired
    · exact .waits ⟨[],rfl,by simp⟩ (by simpa using hf)

/-- A sweep that comes to a free and expired session deletes it. -/
theorem sweepFrom_reaches {now : ℕ} {left : List Ref} {s : Ref} {rest : List Ref}
    (h : Reaches cfg m now left s rest) (free : (m.heap s).lock.free = true)
    (expired : m.expired cfg now s = true) :
    sweepFrom cfg t now left m = (m.take t s).setPc t (.deletion false now s rest) := by
  obtain ⟨passed,rfl,hp⟩ := h
  induction passed with
  | nil => simp [sweepFrom,free,expired]
  | cons r passed ih =>
    obtain ⟨hr,hp⟩ := List.forall_mem_cons.mp hp
    rw [List.cons_append,sweepFrom,if_pos hr.1,if_neg (by simp [hr.2]),take_unlock m t r hr.1]
    exact ih hp

theorem created_cases (h : Registry cfg m) (s : Ref) (k : Creator A) :
    Created m t s k (m.created t s k) := by
  cases k with
  | create => exact .handedOut (.inl rfl)
  | handleCreateSession seeds =>
    cases seeds with
    | none => exact .handedOut (.inr rfl)
    | some parts => exact .seeds
  | handleExecute => exact .executes (locked_cases t _ h _)

/-- The registry after `create` made its session object. -/
theorem Registry.made (h : Registry cfg m) (fs : Storage D A) (p : Option ℕ) :
    Registry cfg ((m.mkdtemp fs).register m.next (m.newSession cfg p)) :=
  h.register (rfl : (m.mkdtemp fs).sessions = m.sessions) rfl rfl
    (rfl : (m.newSession cfg p).id = cfg.tokenUrlsafe m.next)

theorem create_cases (h : Registry cfg m) (fs : Storage D A) (k : Creator A) (ok : Bool) :
    Creates fs cfg m t k (m.create fs cfg t k ok) := by
  rw [create]
  split_ifs with hfull hok hq
  · exact .refused (by simp)
  · split
    · exact .exhausted
    · exact .quota (by omega) ‹_›
  · exact .plain (by omega) (created_cases t (h.made fs none) _ _)
  · exact .refused (by simp)

theorem afterRemoval_frame (m : Manager D A) (s : Ref) (sig : Signal) : ∃ free dir abandoned,
    m.afterRemoval s sig =
      { m.pop s with freeProjectIds := free, dir := dir, abandoned := abandoned } := by
  cases sig <;> simp only [afterRemoval,releaseProjectId_eq] <;> exact ⟨_,_,_,rfl⟩

theorem Registry.afterRemoval (h : Registry cfg m) (s : Ref) (sig : Signal) :
    Registry cfg (m.afterRemoval s sig) := by
  obtain ⟨free,dir,abandoned,he⟩ := afterRemoval_frame m s sig
  rw [he]
  exact (h.pop s).congr rfl rfl fun _ => rfl

/-- However a removal ends, the session is unregistered. -/
theorem Registry.afterRemoval_popped (h : Registry cfg m) (s : Ref) (sig : Signal) :
    (m.afterRemoval s sig).registered s = false := by
  obtain ⟨free,dir,abandoned,he⟩ := afterRemoval_frame m s sig
  rw [he]
  exact h.popped s

theorem take_expired (m : Manager D A) (now : ℕ) (s : Ref) :
    (m.take t s).expired cfg now s = m.expired cfg now s := by
  simp only [expired,take_registered]
  congr 3
  grind

/-- Every way in which a suspended task can go on. -/
theorem resume_cases (h : Registry cfg m) {fs : Storage D A} {sig : Signal} {m' : Manager D A}
    (hstep : m.resume fs cfg t sig = some m') : Resumes fs cfg m t sig m' := by
  have hcleans {s : Ref} {parts : List A} (hpc : m.task t = .seed s parts) (hsig : sig ≠ .cancelled) :
      Resumes fs cfg m t sig (m.cleanUp t s .sessionNotFound) := by
    rcases cleanUp_cases t h s .sessionNotFound with ⟨hr,he⟩ | ⟨hr,hl⟩
    · rw [he]
      exact .seedFailed hpc hsig hr
    · exact .seedCleans hpc hsig hr hl
  have hleaves {m : Manager D A} (hm : Registry cfg m) (u : Use) (how : Ending) :
      Leaves m t u how (m.leave t u how) := leave_cases t u hm how
  have hlock {s : Ref} (l : Lock) : Registry cfg (m.setLock s l) :=
    h.congr rfl rfl fun _ => by grind
  rw [resume] at hstep
  cases hpc : m.task t <;> simp only [hpc,reduceCtorEq] at hstep
  case applyQuota k s =>
    split_ifs at hstep with hok <;> cases hstep
    · subst hok
      exact .quotaSet hpc (created_cases t h s k)
    · exact .quotaFailed hpc hok
  case undoCreate s =>
    cases sig <;> cases hstep
    case ok => exact .undone hpc
    case cancelled => exact .undoAbandoned hpc
    all_goals exact .undoFailed hpc (by simp)
  case seed s parts =>
    cases sig
    case cancelled =>
      cases hstep
      exact .seedCancelled hpc
    case ok =>
      cases parts with
      | nil =>
        cases hstep
        exact .seeded hpc
      | cons a parts =>
        simp only at hstep
        split at hstep <;> cases hstep
        · obtain ⟨d,hd,ha⟩ := Option.bind_eq_some_iff.mp ‹_›
          exact .seedPart hpc hd ha
        · exact hcleans hpc (by simp)
    all_goals
      cases hstep
      exact hcleans hpc (by simp)
  case acquire u s =>
    cases sig
    case ok =>
      simp only at hstep
      split_ifs at hstep with hg
      cases hstep
      cases hreg : m.registered s with
      | true =>
        rw [enter_registered t u _ (by simpa using hreg)]
        exact .entered hpc hg hreg
      | false =>
        rw [enter_unregistered t u _ (by simpa using hreg)]
        have ht : Registry cfg ((m.take t s).unlock s) := h.congr rfl rfl fun _ => by grind
        exact .retired hpc hg hreg (hleaves ht u _)
    case timeout =>
      cases hstep
      exact .waitedTooLong hpc (hleaves (hlock _) u _)
    case cancelled =>
      cases hstep
      exact .waitCancelled hpc (hleaves (hlock _) u _)
    all_goals cases hstep
  case body u s =>
    cases hstep
    exact .left hpc (hleaves (hlock _) u _)
  case remove u s =>
    cases hstep
    have hr : Registry cfg ((m.afterRemoval s sig).unlock s) :=
      (h.afterRemoval s sig).congr rfl rfl fun _ => by grind
    exact .removed hpc (hleaves hr u _)
  case tryAcquire now s rest =>
    cases sig
    case ok =>
      simp only at hstep
      split_ifs at hstep with hg
      cases hstep
      rw [sweepLocked]
      split_ifs with he
      · exact .swept hpc hg (by rwa [take_expired] at he)
      · rw [take_expired,Bool.not_eq_true] at he
        exact .skipped hpc hg he (sweepFrom_cases t now rest)
    case timeout =>
      cases hstep
      exact .passed hpc (sweepFrom_cases t now rest)
    case cancelled =>
      cases hstep
      exact .sweepCancelled hpc
    all_goals cases hstep
  case deletion cancelled now s rest =>
    split_ifs at hstep with hc <;> cases hstep
    · obtain ⟨rfl,rfl⟩ := hc
      exact .shielded hpc
    · refine .deleted hpc fun hsig => ?_
      simpa [hsig] using hc
  case deleted cancelled now s rest =>
    split_ifs at hstep with hc <;> cases hstep
    · exact .sweepEnded hpc hc
    · have hcan : cancelled = false := by simpa using fun h => hc (.inr h)
      subst hcan
      exact .sweepWent hpc (fun h => hc (.inl h)) (sweepFrom_cases t now rest)

theorem idle_iff : m.idle t = true ↔ m.task t = .idle := by
  cases h : m.task t <;> simp [idle,h]

theorem step_cases (h : Registry cfg m) {fs : Storage D A} {e : Event D A} {m' : Manager D A}
    (hstep : m.step fs cfg e = some m') : Steps fs cfg m e m' := by
  cases e <;> simp only [step] at hstep
  case tick =>
    cases hstep
    exact .tick
  case create t k ok =>
    split_ifs at hstep with hi
    cases hstep
    exact .create ((idle_iff t).mp hi) (create_cases t h fs k ok)
  case request t id =>
    split_ifs at hstep with hi
    cases hstep
    exact .request ((idle_iff t).mp hi) (locked_cases t _ h id)
  case delete t id =>
    split_ifs at hstep with hi
    cases hstep
    exact .delete ((idle_iff t).mp hi) (locked_cases t _ h id)
  case sweep t =>
    split_ifs at hstep with hi
    cases hstep
    exact .sweep ((idle_iff t).mp hi) (sweepFrom_cases t m.clock _)
  case resume t sig => exact .resume (resume_cases t h hstep)
  case write t d =>
    split at hstep
    · obtain ⟨d',hd,rfl⟩ := Option.map_eq_some_iff.mp hstep
      exact .write ‹_› (by rw [hd]; rfl)
    · cases hstep
  case erode t d =>
    obtain ⟨s,hs,hstep⟩ := Option.bind_eq_some_iff.mp hstep
    obtain ⟨d',hd,rfl⟩ := Option.map_eq_some_iff.mp hstep
    exact .erode hs (by rw [hd]; rfl)
  case abandonedErode s d =>
    split_ifs at hstep with hs
    obtain ⟨d',hd,rfl⟩ := Option.map_eq_some_iff.mp hstep
    exact .abandonedErode hs (by rw [hd]; rfl)
  case abandonedEnd s removed =>
    by_cases hs : s ∈ m.abandoned
    · rw [if_pos hs] at hstep
      cases hstep
      exact .abandonedEnd hs
    · simp [hs] at hstep

/-- The id of a new session was the last free one, or the next of the range. -/
theorem allocateProjectId_cases {p : ℕ} {m' : Manager D A} (h : m.allocateProjectId = some (p,m')) :
    (m.freeProjectIds.dropLast ++ [p] = m.freeProjectIds ∧
      m' = { m with freeProjectIds := m.freeProjectIds.dropLast }) ∨
    p = m.nextProjectId ∧ p ≤ projectIdMax ∧
      m' = { m with nextProjectId := m.nextProjectId+1 } := by
  rw [allocateProjectId] at h
  split at h
  · rename_i p' hlast
    cases h
    exact .inl ⟨List.dropLast_append_getLast? p hlast,rfl⟩
  · split_ifs at h with hmax
    cases h
    exact .inr ⟨rfl,Nat.not_lt.mp hmax,rfl⟩

/-- Allocation touches only the project ids. -/
theorem allocateProjectId_frame {p : ℕ} {m' : Manager D A} (h : m.allocateProjectId = some (p,m')) :
    ∃ free nextId, m' = { m with freeProjectIds := free, nextProjectId := nextId } := by
  rcases allocateProjectId_cases h with ⟨_,rfl⟩ | ⟨_,_,rfl⟩
  · exact ⟨_,_,rfl⟩
  · exact ⟨_,_,rfl⟩

end Cases

end Manager
end CodeExecutorApi
