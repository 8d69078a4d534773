import CodeExecutorApi.Sessions.IdleSweep

/-! Sessions in the making. From its registration until it is handed out, a session is touched by
its creator alone, as long as no sweep finds its stamp too old. -/
namespace CodeExecutorApi

/-- The session a task is still making. -/
def Pc.creating {A : Type} : Pc A → Option Ref
  | .applyQuota _ s | .seed s _ => some s
  | _ => none

/-- What a fresh directory holds after the given stretches of a seed upload. -/
def Storage.seeded {D A : Type} (fs : Storage D A) (parts : List A) : Option D :=
  parts.foldlM (fun d a => fs.act a d) fs.fresh

namespace Manager
variable {D A : Type}

/-- Task `t` leaves the session `s` as it is and turns to another. -/
structure Untouched (m m' : Manager D A) (t : TaskId) (s : Ref) : Prop where
  heap : m'.heap s = m.heap s
  session : (m'.task t).session ≠ some s

section Untouched
variable {fs : Storage D A} {cfg : Config} {m m' : Manager D A} {t : TaskId} {u : Use} {r s : Ref}

theorem Untouched.setPc {pc : Pc A} (h : pc.session ≠ some s) : Untouched m (m.setPc t pc) t s :=
  ⟨rfl,by rwa [setPc_task,if_pos rfl]⟩

theorem setLock_heap_ne {l : Lock} (hr : r ≠ s) : (m.setLock r l).heap s = m.heap s := by
  rw [setLock,setSession_heap,if_neg (Ne.symm hr)]

theorem Untouched.setLock {l : Lock} (hr : r ≠ s) (h : Untouched (m.setLock r l) m' t s) :
    Untouched m m' t s :=
  ⟨h.heap.trans (setLock_heap_ne hr),h.session⟩

theorem Untouched.touch (hr : r ≠ s) (h : Untouched (m.touch r) m' t s) : Untouched m m' t s :=
  ⟨h.heap.trans (by rw [Manager.touch,setSession_heap,if_neg (Ne.symm hr)]),h.session⟩

theorem Locks.untouched (hr : r ≠ s) (locks : Locks m t u r m') : Untouched m m' t s := by
  cases locks with
  | waits =>
    apply Untouched.setLock hr
    exact .setPc (by simpa [Pc.session] using hr)
  | enters =>
    apply Untouched.setLock hr
    apply Untouched.touch hr
    exact .setPc (by simpa using hr)

theorem Leaves.untouched {how : Ending} (hu : u.created ≠ some s) (leaves : Leaves m t u how m') :
    Untouched m m' t s := by
  cases leaves with
  | ends => exact .setPc hu
  | gone he => exact .setPc (by rw [he] at hu; exact hu)
  | cleans he _ locks =>
    rw [he] at hu
    exact locks.untouched fun hs => hu (by rw [← hs]; rfl)

theorem Enters.untouched {id : SessionId} (hu : u.created ≠ some s) (hid : m.get id ≠ some s)
    (enters : Enters m t u id m') : Untouched m m' t s := by
  cases enters with
  | missing _ leaves => exact leaves.untouched hu
  | locks hr locks => exact locks.untouched fun hs => hid (by rw [← hs,hr])

/-- A sweep passes over a free session whose stamp is recent. -/
theorem Sweeps.untouched {now : ℕ} {left : List Ref} (hfree : (m.heap s).lock.free = true)
    (hfresh : Obtains cfg m now left s → now ≤ (m.heap s).lastUsed + cfg.inactivityTimeout)
    (sweeps : Sweeps cfg m t now left m') : Untouched m m' t s := by
  cases sweeps with
  | passed => exact .setPc (by simp [Pc.session])
  | @waits r rest reaches busy =>
    have hr : r ≠ s := by
      rintro rfl
      rw [hfree] at busy
      cases busy
    apply Untouched.setLock hr
    exact .setPc (by simpa [Pc.session] using hr)
  | @deletes r rest reaches free expired =>
    have hr : r ≠ s := by
      rintro rfl
      obtain ⟨hreg,hlate⟩ := expired_iff.mp expired
      have := hfresh ⟨hreg,free,_,reaches⟩
      omega
    apply Untouched.setLock hr
    exact .setPc (by simpa [Pc.session] using hr)

theorem Created.untouched {k : Creator A} (h : Registry cfg m) (hr : r ≠ s)
    (created : Created m t r k m') : Untouched m m' t s := by
  cases created with
  | handedOut | seeds => exact .setPc (by simpa [Pc.session] using hr)
  | executes enters =>
    refine enters.untouched (by simpa [Use.created] using hr) fun hg => ?_
    have hid := (h.registered_of_get hg).2
    rw [h.ids] at hid
    exact hr (cfg.token_injective hid)

/-- A request that names another session, and a sweep that does not find `s` expired. -/
def Spares (cfg : Config) (m : Manager D A) (e : Event D A) (s : Ref) : Prop :=
  (∀ t id, e = .request t id ∨ e = .delete t id → m.get id ≠ some s) ∧
    ∀ now, Visits cfg m e now s → now ≤ (m.heap s).lastUsed + cfg.inactivityTimeout

theorem unlock_untouched {now : ℕ} {left : List Ref} {l : Lock} (hr : r ≠ s)
    (hfree : (m.heap s).lock.free = true)
    (hfresh : Obtains cfg (m.setLock r l) now left s →
      now ≤ (m.heap s).lastUsed + cfg.inactivityTimeout)
    (sweeps : Sweeps cfg (m.setLock r l) t now left m') : Untouched m m' t s := by
  refine Untouched.setLock hr (sweeps.untouched (by rwa [setLock_heap_ne hr]) fun ho => ?_)
  rw [setLock_heap_ne hr]
  exact hfresh ho

theorem Resumes.untouched {sig : Signal} (hc : Coherent cfg m)
    (hsession : (m.task t).session ≠ some s) (hfree : (m.heap s).lock.free = true)
    (hspare : Spares cfg m (.resume t sig) s) (resumes : Resumes fs cfg m t sig m') :
    Untouched m m' t s := by
  have hsound := hc.sound t
  have hfresh := hspare.2
  -- the task's own session is another one, and so is the session it created
  have hcreated {u : Use} {r : Ref} (hu : (m.task t).use = some u)
      (hr : (m.task t).session = some r) : u.created ≠ some s := by
    intro hs
    rw [hr,hsound.created u r s hu hr hs] at hsession
    exact hsession rfl
  have hne {r : Ref} (hr : (m.task t).session = some r) : r ≠ s := fun hs =>
    hsession (by rw [hr,hs])
  cases resumes with
  | quotaSet pc created => exact created.untouched hc.registry (hne (by rw [pc]; rfl))
  | quotaFailed pc =>
    have hr := hne (r := _) (by rw [pc]; rfl)
    refine ⟨?_,?_⟩
    · rw [undo,releaseProjectId_eq]
      rfl
    · rw [undo,setPc_task,if_pos rfl]
      simpa [Pc.session] using hr
  | undone pc | undoAbandoned pc | undoFailed pc | seedCancelled pc | seeded pc | seedFailed pc =>
    have hr := hne (r := _) (by rw [pc]; rfl)
    exact ⟨rfl,by simpa [finish,setPc_task,Pc.session] using hr⟩
  | seedPart pc =>
    have hr := hne (r := _) (by rw [pc]; rfl)
    exact ⟨rfl,by simpa [setPc_task,Pc.session] using hr⟩
  | seedCleans pc _ _ locks => exact locks.untouched (hne (by rw [pc]; rfl))
  | entered pc =>
    have hr := hne (r := _) (by rw [pc]; rfl)
    exact ((Untouched.setPc (by simpa using hr)).touch hr).setLock hr
  | retired pc _ _ leaves =>
    have hr := hne (r := _) (by rw [pc]; rfl)
    exact ((leaves.untouched (hcreated (by rw [pc]; rfl) (by rw [pc]; rfl))).setLock hr).setLock hr
  | waitedTooLong pc leaves | waitCancelled pc leaves | left pc leaves =>
    exact (leaves.untouched (hcreated (by rw [pc]; rfl) (by rw [pc]; rfl))).setLock
      (hne (by rw [pc]; rfl))
  | @removed u r sig m' pc leaves =>
    have hr := hne (r := r) (by rw [pc]; rfl)
    have hl := (leaves.untouched (hcreated (by rw [pc]; rfl) (by rw [pc]; rfl))).setLock hr
    obtain ⟨free,dir,abandoned,he⟩ := afterRemoval_frame m r sig
    rw [he] at hl
    exact ⟨hl.heap,hl.session⟩
  | swept pc =>
    have hr := hne (r := _) (by rw [pc]; rfl)
    exact (Untouched.setPc (by simpa [Pc.session] using hr)).setLock hr
  | @skipped now r rest m' pc granted fresh sweeps =>
    have hr := hne (r := r) (by rw [pc]; rfl)
    refine Untouched.setLock hr (unlock_untouched hr ?_ (fun ho => ?_) sweeps)
    · rwa [setLock_heap_ne hr]
    rw [setLock_heap_ne hr]
    exact hfresh now (.skipped pc granted fresh ho)
  | passed pc sweeps =>
    exact unlock_untouched (hne (by rw [pc]; rfl)) hfree (fun ho => hfresh _ (.passed pc ho)) sweeps
  | sweepWent pc hsig sweeps =>
    exact unlock_untouched (hne (by rw [pc]; rfl)) hfree (fun ho => hfresh _ (.went pc hsig ho))
      sweeps
  | sweepCancelled pc | sweepEnded pc =>
    exact Untouched.setLock (hne (by rw [pc]; rfl)) (.setPc (by simp [Pc.session]))
  | shielded pc =>
    have hr := hne (r := _) (by rw [pc]; rfl)
    exact .setPc (by simpa [Pc.session] using hr)
  | @deleted cancelled now r rest sig pc =>
    have hr := hne (r := r) (by rw [pc]; rfl)
    obtain ⟨free,dir,abandoned,he⟩ := afterRemoval_frame m r sig
    rw [he]
    exact ⟨rfl,by simpa [setPc_task,Pc.session] using hr⟩

/-- A step leaves every free session alone that its task does not work on and that it spares. -/
theorem Steps.untouched {e : Event D A} (hc : Coherent cfg m) (steps : Steps fs cfg m e m')
    (ht : e.task = some t) (hs : s < m.next) (hsession : (m.task t).session ≠ some s)
    (hfree : (m.heap s).lock.free = true) (hspare : Spares cfg m e s) :
    Untouched m m' t s := by
  have hne : m.next ≠ s := (Nat.ne_of_lt hs).symm
  cases steps <;> cases ht
  case create k ok idle creates =>
    cases creates with
    | refused | exhausted => exact ⟨rfl,by simp [finish,setPc_task,Pc.session]⟩
    | quota room allocated =>
      refine ⟨?_,by simpa [setPc_task,Pc.session] using hne⟩
      exact (Effect.made room allocated : Effect fs cfg m (.create t k ok) _).heap hs
    | plain room created =>
      have hu := created.untouched (hc.registry.made fs none) hne
      have hplain := (Effect.plain room : Effect fs cfg m (.create t k ok) _).heap hs
      exact ⟨hu.heap.trans hplain,hu.session⟩
  case request enters => exact enters.untouched (by simp [Use.created]) (hspare.1 t _ (.inl rfl))
  case delete enters => exact enters.untouched (by simp [Use.created]) (hspare.1 t _ (.inr rfl))
  case sweep sweeps => exact sweeps.untouched hfree fun ho => hspare.2 _ (.begins ho)
  case resume resumes => exact resumes.untouched hc hsession hfree hspare

end Untouched

/-- Everybody but its creator spares a session in the making: clients do not know its id, and a
sweep does not come to it more than the timeout after it was made. -/
def SparesNew (cfg : Config) (m : Manager D A) (e : Event D A) : Prop :=
  ∀ t s, (m.task t).creating = some s → Spares cfg m e s

/-- How far task `t` has come with the session `s`, the events `h` having taken place. -/
inductive Progress (fs : Storage D A) (h : List (Manager D A × Event D A)) (m : Manager D A)
    (t : TaskId) (s : Ref) : Prop
  | quota {k} (pc : m.task t = .applyQuota k s) (dir : m.dir s = some fs.fresh)
      (asked : ∀ p ∈ h, ∀ k' ok, p.2 = .create t k' ok → k' = k) : Progress fs h m t s
  | seed {parts rest d} (pc : m.task t = .seed s rest) (dir : m.dir s = some d)
      (seeded : fs.seeded parts = some d)
      (asked : ∀ p ∈ h, ∀ k' ok, p.2 = .create t k' ok →
        k' = .handleCreateSession (some (parts ++ rest))) : Progress fs h m t s

/-- A session in the making: registered, its lock free, and nobody else on it. -/
structure Making (fs : Storage D A) (h : List (Manager D A × Event D A)) (m : Manager D A)
    (t : TaskId) (s : Ref) : Prop where
  registered : m.registered s = true
  free : (m.heap s).lock.free = true
  alone : ∀ t' ≠ t, (m.task t').session ≠ some s
  progress : Progress fs h m t s

section Making
variable {fs : Storage D A} {cfg : Config} {m m' : Manager D A} {e : Event D A} {t : TaskId}
  {s : Ref} {h : List (Manager D A × Event D A)}

/-- An effect of somebody else's step on a session nobody else works on. -/
theorem Effect.spares (hc : Coherent cfg m) (hreg : m.registered s = true)
    (halone : ∀ t', (m.task t').creating ≠ some s → (m.task t').session ≠ some s)
    (hactor : ∀ t', e.task = some t' → (m.task t').session ≠ some s)
    (effect : Effect fs cfg m e m') : m'.registered s = true ∧ m'.dir s = m.dir s := by
  have hlt := hc.registry.registered_lt hreg
  have hab : s ∉ m.abandoned := by
    intro hm
    rw [(hc.abandoned s hm).2] at hreg
    cases hreg
  have hdir {r : Ref} {d : Option D} (hr : r ≠ s) : (m.setDir r d).dir s = m.dir s := by
    rw [setDir_dir,if_neg (Ne.symm hr)]
  cases effect with
  | none | tick | abandon => exact ⟨hreg,rfl⟩
  | @dir e r d hr =>
    refine ⟨hreg,hdir ?_⟩
    rintro rfl
    cases e <;> simp only [touching,reduceCtorEq] at hr
    case write t' d =>
      split at hr <;> cases hr
      rename_i hpc
      exact halone t' (by rw [hpc]; simp [Pc.creating]) (by rw [hpc]; rfl)
    case erode t' d =>
      cases hpc : m.task t' <;> rw [hpc] at hr <;> cases hr
      all_goals exact halone t' (by rw [hpc]; simp [Pc.creating]) (by rw [hpc]; rfl)
    case abandonedErode r' d' =>
      split_ifs at hr with hmem
      cases hr
      exact hab hmem
    case resume t' sig =>
      split at hr <;> cases hr
      all_goals
        rename_i hpc
        exact hactor t' rfl (by rw [hpc]; rfl)
  | abandonedEnd hs =>
    refine ⟨hreg,hdir ?_⟩
    rintro rfl
    exact hab hs
  | mkdtemp => exact ⟨hreg,hdir (Nat.ne_of_lt hlt).symm⟩
  | made _ allocated =>
    refine ⟨(made_registered hc.registry allocated _ s).mpr (.inl hreg),?_⟩
    obtain ⟨free,nextId,rfl⟩ := allocateProjectId_frame allocated
    exact hdir (Nat.ne_of_lt hlt).symm
  | plain => exact ⟨(plain_registered fs hc.registry s).mpr (.inl hreg),hdir (Nat.ne_of_lt hlt).symm⟩
  | @undo t' k r sig pc hsig =>
    have hr : r ≠ s := fun hs => hactor t' rfl (by rw [pc,hs]; rfl)
    rw [releaseProjectId_eq]
    exact ⟨(hc.registry.pop_registered r s).mpr ⟨hreg,hr.symm⟩,rfl⟩
  | @removed t' r sig pc =>
    have hr : r ≠ s := by
      rintro rfl
      refine hactor t' rfl ?_
      cases hpc : m.task t' <;> rw [hpc] at pc <;> cases pc <;> rfl
    have hpop := (hc.registry.pop_registered r s).mpr ⟨hreg,hr.symm⟩
    cases sig with
    | ok =>
      refine ⟨?_,?_⟩
      · obtain ⟨free,dir,abandoned,he⟩ := afterRemoval_frame m r .ok
        rw [he]
        exact hpop
      · rw [afterRemoval,releaseProjectId_eq]
        exact hdir hr
    | osError | timeout | exception | cancelled => exact ⟨hpop,rfl⟩

theorem Progress.cons (p : Progress fs h m t s) (hd : m'.dir s = m.dir s)
    (ht : m'.task t = m.task t) (he : e.task ≠ some t) : Progress fs ((m,e)::h) m' t s := by
  have hnew (k : Creator A) (ok : Bool) : e ≠ .create t k ok := by
    rintro rfl
    exact he rfl
  cases p with
  | quota pc dir asked =>
    refine .quota (ht.trans pc) (hd.trans dir) (List.forall_mem_cons.mpr ⟨?_,asked⟩)
    exact fun k' ok hk => absurd hk (hnew k' ok)
  | seed pc dir seeded asked =>
    refine .seed (ht.trans pc) (hd.trans dir) seeded (List.forall_mem_cons.mpr ⟨?_,asked⟩)
    exact fun k' ok hk => absurd hk (hnew k' ok)

/-- The step of another task, or of none, leaves a session in the making as it is. -/
theorem Making.others (hc : Coherent cfg m) (hm : Making fs h m t s)
    (hcreating : (m.task t).creating = some s) (hspare : Spares cfg m e s)
    (hstep : m.step fs cfg e = some m') (he : e.task ≠ some t) :
    Making fs ((m,e)::h) m' t s := by
  have steps := step_cases hc.registry hstep
  have hlt := hc.registry.registered_lt hm.registered
  have hactor (t' : TaskId) (ht' : e.task = some t') : (m.task t').session ≠ some s :=
    hm.alone t' fun hne => he (by rw [ht',hne])
  have halone (t' : TaskId) (ht' : (m.task t').creating ≠ some s) : (m.task t').session ≠ some s :=
    hm.alone t' fun hne => ht' (by rw [hne,hcreating])
  obtain ⟨m₁,effect,settles⟩ := steps.effect hc.registry
  obtain ⟨hreg,hdir⟩ := effect.spares hc hm.registered halone hactor
  have hothers (t' : TaskId) (ht' : e.task ≠ some t') := steps.others hc.registry ht'
  refine ⟨by rw [settles.frame.registered,hreg],?_,?_,?_⟩
  · cases hac : e.task with
    | none =>
      rw [hac] at settles
      cases settles
      rw [effect.heap hlt]
      exact hm.free
    | some t' =>
      rw [(steps.untouched hc hac hlt (hactor t' hac) hm.free hspare).heap]
      exact hm.free
  · intro t' hne
    by_cases hac : e.task = some t'
    · exact (steps.untouched hc hac hlt (hactor t' hac) hm.free hspare).session
    · rw [hothers t' hac]
      exact hm.alone t' hne
  · exact hm.progress.cons (by rw [settles.frame.dir,hdir]) (hothers t he) he

/-- A task that takes a step is not idle any more. -/
theorem Steps.not_idle (steps : Steps fs cfg m e m') (ht : e.task = some t) :
    m'.task t ≠ .idle := by
  have hstarted : ∀ u s, (Use.started u s : Pc A) ≠ .idle := fun u => by
    cases u <;> simp [Use.started]
  have hsweeps {m : Manager D A} {now : ℕ} {left : List Ref}
      (sweeps : Sweeps cfg m t now left m') : m'.task t ≠ .idle := by
    cases sweeps <;> simp [finish,setPc_task]
  cases steps <;> cases ht
  case create creates =>
    cases creates with
    | plain _ created =>
      exact created.task (P := (· ≠ .idle)) (by simp) hstarted (by simp) (by simp)
    | refused | exhausted | quota => simp [finish,setPc_task]
  case request enters => exact enters.task (P := (· ≠ .idle)) (by simp) hstarted (by simp)
  case delete enters => exact enters.task (P := (· ≠ .idle)) (by simp) hstarted (by simp)
  case sweep sweeps => exact hsweeps sweeps
  case resume resumes =>
    cases resumes with
    | quotaSet _ created =>
      exact created.task (P := (· ≠ .idle)) (by simp) hstarted (by simp) (by simp)
    | seedCleans _ _ _ locks => exact locks.task (P := (· ≠ .idle)) (by simp) hstarted
    | entered =>
      rw [setPc_task,if_pos rfl]
      exact hstarted _ _
    | retired _ _ _ leaves | waitedTooLong _ leaves | waitCancelled _ leaves | left _ leaves
    | removed _ leaves => exact leaves.task (P := (· ≠ .idle)) (by simp) hstarted (by simp)
    | skipped _ _ _ sweeps | passed _ sweeps | sweepWent _ _ sweeps => exact hsweeps sweeps
    | quotaFailed | undone | undoAbandoned | undoFailed | seedCancelled | seeded | seedPart
    | seedFailed | swept | sweepCancelled | shielded | deleted | sweepEnded =>
      simp [undo,finish,setPc_task]

/-- Only the two awaits of a creation name a session in the making. -/
def Uncreating (pc : Pc A) : Prop := pc.creating = none

theorem Locks.uncreating {u : Use} {r : Ref} (locks : Locks m t u r m') : Uncreating (m'.task t) :=
  locks.task (fun _ _ => rfl) fun u _ => by cases u <;> rfl

theorem Leaves.uncreating {u : Use} {how : Ending} (leaves : Leaves m t u how m') :
    Uncreating (m'.task t) :=
  leaves.task (fun _ _ => rfl) (fun u _ => by cases u <;> rfl) fun _ _ => rfl

theorem Enters.uncreating {u : Use} {id : SessionId} (enters : Enters m t u id m') :
    Uncreating (m'.task t) :=
  enters.task (fun _ _ => rfl) (fun u _ => by cases u <;> rfl) fun _ _ => rfl

theorem Sweeps.uncreating {now : ℕ} {left : List Ref} (sweeps : Sweeps cfg m t now left m') :
    Uncreating (m'.task t) := by
  cases sweeps <;> simp [Uncreating,finish,setPc_task,Pc.creating]

/-- What the object made next looks like once it is registered. -/
theorem Making.fresh (hc : Coherent cfg m) {m₁ : Manager D A} {p : Option ℕ} {pc : Pc A}
    (hreg : (m₁.register m.next (m.newSession cfg p)).registered m.next = true)
    (hothers : ∀ t' ≠ t, m₁.task t' = m.task t')
    (progress : Progress fs h ((m₁.register m.next (m.newSession cfg p)).setPc t pc) t m.next) :
    Making fs h ((m₁.register m.next (m.newSession cfg p)).setPc t pc) t m.next where
  registered := hreg
  free := by
    have hx : ((m₁.register m.next (m.newSession cfg p)).setPc t pc).heap m.next =
        m.newSession cfg p := by
      change (m₁.register m.next (m.newSession cfg p)).heap m.next = _
      rw [register,setSession_heap,if_pos rfl]
    rw [hx]
    rfl
  alone t' hne hs := by
    have ht' : ((m₁.register m.next (m.newSession cfg p)).setPc t pc).task t' = m.task t' := by
      rw [setPc_task,if_neg hne]
      exact hothers t' hne
    rw [ht'] at hs
    exact Nat.lt_irrefl _ ((hc.sound t').session_lt _ hs)
  progress := progress

/-- A session made in this step, or one whose creator goes on with it. -/
theorem Making.actor (hc : Coherent cfg m) (hidle : m.task t = .idle → ∀ p ∈ h, p.2.task ≠ some t)
    (hm : ∀ s, (m.task t).creating = some s → Making fs h m t s)
    (hstep : m.step fs cfg e = some m') (ht : e.task = some t)
    (hcreating : (m'.task t).creating = some s) : Making fs ((m,e)::h) m' t s := by
  have habsurd (hun : Uncreating (m'.task t)) : Making fs ((m,e)::h) m' t s := by
    rw [Uncreating] at hun
    rw [hun] at hcreating
    cases hcreating
  have hfirst (k : Creator A) (ok : Bool) (idle : m.task t = .idle) :
      ∀ p ∈ (m,Event.create t k ok)::h, ∀ k' ok', p.2 = .create t k' ok' → k' = k := by
    rw [List.forall_mem_cons]
    refine ⟨fun k' ok' hk => by cases hk; rfl,fun p hp k' ok' hk => ?_⟩
    exact absurd (by rw [hk]; rfl) (hidle idle p hp)
  have steps := step_cases hc.registry hstep
  have hothers (t' : TaskId) (hne : t' ≠ t) : m'.task t' = m.task t' :=
    steps.others hc.registry (by simpa [ht,eq_comm] using hne)
  cases steps <;> cases ht
  case create k ok idle creates =>
    cases creates with
    | refused | exhausted => exact habsurd (by simp [Uncreating,finish,setPc_task,Pc.creating])
    | @quota p m₁ room allocated =>
      simp only [setPc_task,if_true,Pc.creating,Option.some.injEq] at hcreating
      subst hcreating
      have hreg := (made_registered hc.registry allocated (some p) m.next).mpr (.inr rfl)
      have hpc : ((m₁.register m.next (m.newSession cfg (some p))).setPc t
          (.applyQuota k m.next)).task t = .applyQuota k m.next := by rw [setPc_task,if_pos rfl]
      have hmade : m₁.task = m.task ∧ m₁.dir m.next = some fs.fresh := by
        obtain ⟨free,nextId,rfl⟩ := allocateProjectId_frame allocated
        refine ⟨rfl,?_⟩
        change (m.setDir m.next (some fs.fresh)).dir m.next = _
        rw [setDir_dir,if_pos rfl]
      obtain ⟨htask,hdir⟩ := hmade
      exact .fresh hc hreg (fun t' _ => by rw [htask]) (.quota hpc hdir (hfirst k ok idle))
    | plain room created =>
      cases created with
      | handedOut => exact habsurd (by simp [Uncreating,finish,setPc_task,Pc.creating])
      | executes enters => exact habsurd enters.uncreating
      | @seeds parts =>
        simp only [setPc_task,if_true,Pc.creating,Option.some.injEq] at hcreating
        subst hcreating
        have hreg := (plain_registered fs hc.registry m.next).mpr (.inr rfl)
        have hpc : (((m.mkdtemp fs).register m.next (m.newSession cfg none)).setPc t
            (.seed m.next parts)).task t = .seed m.next parts := by rw [setPc_task,if_pos rfl]
        have hempty : fs.seeded ([] : List A) = some fs.fresh := rfl
        refine .fresh hc hreg (fun _ _ => rfl) (.seed hpc ?_ hempty ?_)
        · change (m.setDir m.next (some fs.fresh)).dir m.next = _
          rw [setDir_dir,if_pos rfl]
        · exact hfirst _ ok idle
  case request enters => exact habsurd enters.uncreating
  case delete enters => exact habsurd enters.uncreating
  case sweep sweeps => exact habsurd sweeps.uncreating
  case resume sig resumes =>
    have hevent {k : Creator A} (hasked : ∀ p ∈ h, ∀ k' ok, p.2 = .create t k' ok → k' = k) :
        ∀ p ∈ (m,Event.resume t sig)::h, ∀ k' ok, p.2 = .create t k' ok → k' = k := by
      rw [List.forall_mem_cons]
      exact ⟨by simp,hasked⟩
    have halone (hmk : Making fs h m t s) : ∀ t' ≠ t, (m'.task t').session ≠ some s := by
      intro t' hne
      rw [hothers t' hne]
      exact hmk.alone t' hne
    cases resumes with
    | @quotaSet k r m' pc created =>
      cases created with
      | handedOut => exact habsurd (by simp [Uncreating,finish,setPc_task,Pc.creating])
      | executes enters => exact habsurd enters.uncreating
      | @seeds parts =>
        simp only [setPc_task,if_true,Pc.creating,Option.some.injEq] at hcreating
        subst hcreating
        have hmk := hm r (by rw [pc]; rfl)
        refine ⟨hmk.registered,hmk.free,halone hmk,?_⟩
        cases hmk.progress with
        | quota pc' dir asked =>
          cases pc.symm.trans pc'
          have hempty : fs.seeded ([] : List A) = some fs.fresh := rfl
          exact .seed (by rw [setPc_task,if_pos rfl]) dir hempty (hevent asked)
        | seed pc' => cases pc.symm.trans pc'
    | @seedPart r a parts d d' pc dir act =>
      simp only [setPc_task,if_true,Pc.creating,Option.some.injEq] at hcreating
      subst hcreating
      have hmk := hm r (by rw [pc]; rfl)
      refine ⟨hmk.registered,hmk.free,halone hmk,?_⟩
      cases hmk.progress with
      | quota pc' => cases pc.symm.trans pc'
      | @seed done rest d₀ pc' dir' seeded asked =>
        cases pc.symm.trans pc'
        cases dir.symm.trans dir'
        have hnext : fs.seeded (done ++ [a]) = some d' := by
          rw [Storage.seeded] at seeded ⊢
          rw [List.foldlM_append,seeded]
          simp [act]
        refine .seed (by rw [setPc_task,if_pos rfl]) ?_ hnext ?_
        · change (m.setDir r (some d')).dir r = _
          rw [setDir_dir,if_pos rfl]
        · simpa using hevent asked
    | seedCleans _ _ _ locks => exact habsurd locks.uncreating
    | @entered u r pc =>
      refine habsurd ?_
      rw [setPc_task,if_pos rfl]
      cases u <;> rfl
    | retired _ _ _ leaves | waitedTooLong _ leaves | waitCancelled _ leaves | left _ leaves
    | removed _ leaves => exact habsurd leaves.uncreating
    | skipped _ _ _ sweeps | passed _ sweeps | sweepWent _ _ sweeps =>
      exact habsurd sweeps.uncreating
    | quotaFailed | undone | undoAbandoned | undoFailed | seedCancelled | seeded | seedFailed
    | swept | sweepCancelled | shielded | deleted | sweepEnded =>
      exact habsurd (by simp [Uncreating,undo,finish,setPc_task,Pc.creating])

end Making

/-- A session at the moment its creator reports it. -/
structure Live (m : Manager D A) (s : Ref) : Prop where
  registered : m.get (m.heap s).id = some s
  dir : (m.dir s).isSome
  unremoved : ∀ t, (m.task t).removing ≠ some s
  unabandoned : s ∉ m.abandoned

/-- With this event `create` returns a session, or a multipart creation answers 200; the last
argument is the state in which it does so. -/
inductive Reports (fs : Storage D A) (cfg : Config) (m : Manager D A) :
    Event D A → TaskId → Ref → Manager D A → Prop
  | plain {t k} (room : m.sessions.length < cfg.maxSessions) (quota : cfg.quotaMountpoint = false) :
      Reports fs cfg m (.create t k true) t m.next
        ((m.mkdtemp fs).register m.next (m.newSession cfg none))
  | quota {t k s} (pc : m.task t = .applyQuota k s) : Reports fs cfg m (.resume t .ok) t s m
  | seeded {t s} (pc : m.task t = .seed s []) : Reports fs cfg m (.resume t .ok) t s m

section Reports
variable {fs : Storage D A} {cfg : Config} {m m' : Manager D A} {e : Event D A} {t : TaskId}
  {s : Ref} {h : List (Manager D A × Event D A)}

theorem Making.run (run : Machine.Run (step fs cfg) (init cfg) h m)
    (hg : Machine.Guarded (SparesNew cfg) h) :
    ∀ t s, (m.task t).creating = some s → Making fs h m t s := by
  have hall : (∀ t, m.task t = .idle → ∀ p ∈ h, p.2.task ≠ some t) ∧
      ∀ t s, (m.task t).creating = some s → Making fs h m t s := by
    induction run with
    | start => exact ⟨by simp,fun t s hs => by cases hs⟩
    | @next h m e m' run taken ih =>
      obtain ⟨hge,hgh⟩ := (Machine.guarded_cons _ _ _ _).mp hg
      obtain ⟨hidle,hmaking⟩ := ih hgh
      have hc := coherent_of_run run
      have steps := step_cases hc.registry taken
      refine ⟨fun t ht => ?_,fun t s hs => ?_⟩
      · have he : e.task ≠ some t := fun he => steps.not_idle he ht
        rw [steps.others hc.registry he] at ht
        exact List.forall_mem_cons.mpr ⟨he,hidle t ht⟩
      · by_cases he : e.task = some t
        · exact Making.actor hc (hidle t) (hmaking t) taken he hs
        · rw [steps.others hc.registry he] at hs
          exact (hmaking t s hs).others hc hs (hge t s hs) taken he
  exact hall.2

/-- Removals in progress and abandoned ones miss a registered session nobody else works on. -/
theorem Making.live (hc : Coherent cfg m) (hm : Making fs h m t s)
    (hcreating : (m.task t).creating = some s) : Live m s where
  registered := by simpa [Manager.registered] using hm.registered
  dir := by
    cases hm.progress with
    | quota _ dir => rw [dir]; rfl
    | seed _ dir => rw [dir]; rfl
  unremoved t' hr := by
    by_cases ht : t' = t
    · subst ht
      cases hpc : m.task t' <;> rw [hpc] at hr hcreating <;> cases hr <;> cases hcreating
    · refine hm.alone t' ht ?_
      cases hpc : m.task t' <;> rw [hpc] at hr <;> cases hr <;> rfl
  unabandoned hab := by
    have hu := (hc.abandoned s hab).2
    rw [hm.registered] at hu
    cases hu

/-- A session made without quota is reported at once, alive and empty. -/
theorem plain_live (hc : Coherent cfg m) :
    Live ((m.mkdtemp fs).register m.next (m.newSession cfg none)) m.next where
  registered := by
    have hreg := (plain_registered fs hc.registry m.next).mpr (.inr rfl)
    simpa [Manager.registered] using hreg
  dir := by
    change ((m.setDir m.next (some fs.fresh)).dir m.next).isSome
    rw [setDir_dir,if_pos rfl]
    rfl
  unremoved t' hr := by
    change (m.task t').removing = some m.next at hr
    have hs : (m.task t').session = some m.next := by
      cases hpc : m.task t' <;> rw [hpc] at hr <;> cases hr <;> rfl
    exact Nat.lt_irrefl _ ((hc.sound t').session_lt _ hs)
  unabandoned hab := Nat.lt_irrefl _ (hc.abandoned _ hab).1

/-- Every session that is reported is live and, after a multipart creation, holds what the parts
of its upload left in a fresh directory. -/
theorem Reports.live (run : Machine.Run (step fs cfg) (init cfg) h m)
    (hg : Machine.Guarded (SparesNew cfg) h) (reports : Reports fs cfg m e t s m') :
    Live m' s ∧ ∀ parts ok, m.task t = .seed s [] →
      (∃ p ∈ h, p.2 = .create t (.handleCreateSession (some parts)) ok) →
        m'.dir s = fs.seeded parts := by
  have hc := coherent_of_run run
  cases reports with
  | plain =>
    refine ⟨plain_live hc,fun parts ok hpc => ?_⟩
    exact absurd ((hc.sound t).session_lt _ (by rw [hpc]; rfl)) (Nat.lt_irrefl _)
  | quota pc =>
    have hcreating : (m.task t).creating = some s := by rw [pc]; rfl
    refine ⟨(Making.run run hg t s hcreating).live hc hcreating,fun parts ok hpc => ?_⟩
    cases pc.symm.trans hpc
  | seeded pc =>
    have hcreating : (m.task t).creating = some s := by rw [pc]; rfl
    have hmk := Making.run run hg t s hcreating
    refine ⟨hmk.live hc hcreating,?_⟩
    rintro parts ok - ⟨p,hp,hpe⟩
    cases hmk.progress with
    | quota pc' => cases pc.symm.trans pc'
    | @seed done rest d pc' dir seeded asked =>
      cases pc.symm.trans pc'
      have hparts := asked p hp _ ok hpe
      rw [List.append_nil] at hparts
      cases hparts
      rw [dir,seeded]

end Reports
end Manager
end CodeExecutorApi
