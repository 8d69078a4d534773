import CodeExecutorApi.Sessions.Coherence
import CodeExecutorApi.Sessions.Effects

/-! Which sessions the sweep deletes. The stamp is the beginning of the last `locked` block, so a
block that lasts longer than the timeout can be followed by a deletion at once. -/
namespace CodeExecutorApi
namespace Manager
variable {D A : Type}

/-- In the step from `m` to `m'` a sweep starts deleting `s`. -/
def StartsDeletion (m m' : Manager D A) (s : Ref) : Prop :=
  ∃ t now rest, m'.task t = .deletion false now s rest ∧ (m.task t).deleting ≠ some s

/-- Nobody was inside `locked` of `s` in the last `T` before the clock of `m`. -/
def IdleFor (T : ℕ) (h : List (Manager D A × Event D A)) (m : Manager D A) (s : Ref) : Prop :=
  ∀ p ∈ h, m.clock ≤ p.1.clock + T → ∀ t, (p.1.task t).inside ≠ some s

/-- The event of `p` lets a task begin its block inside `locked` of `s`. -/
def Begins (fs : Storage D A) (cfg : Config) (p : Manager D A × Event D A) (s : Ref) : Prop :=
  ∃ m' t, step fs cfg p.1 p.2 = some m' ∧ (m'.task t).inside = some s ∧ m'.task t ≠ p.1.task t

/-- The loop of a sweep finds the registered session `s` free. -/
def Obtains (cfg : Config) (m : Manager D A) (now : ℕ) (left : List Ref) (s : Ref) : Prop :=
  m.registered s = true ∧ (m.heap s).lock.free = true ∧ ∃ rest, Reaches cfg m now left s rest

/-- In this step the pass begun at `now` gets the lock of the registered session `s`. -/
inductive Visits (cfg : Config) (m : Manager D A) : Event D A → ℕ → Ref → Prop
  | begins {t s} (obtains : Obtains cfg m m.clock (m.sessions.map Prod.snd) s) :
      Visits cfg m (.sweep t) m.clock s
  | granted {t now s rest} (pc : m.task t = .tryAcquire now s rest)
      (granted : m.granted t s = true) (hs : m.registered s = true) :
      Visits cfg m (.resume t .ok) now s
  | skipped {t now r rest s} (pc : m.task t = .tryAcquire now r rest)
      (granted : m.granted t r = true) (fresh : m.expired cfg now r = false)
      (obtains : Obtains cfg ((m.take t r).unlock r) now rest s) :
      Visits cfg m (.resume t .ok) now s
  | passed {t now r rest s} (pc : m.task t = .tryAcquire now r rest)
      (obtains : Obtains cfg (m.dequeue t r) now rest s) : Visits cfg m (.resume t .timeout) now s
  | went {t now r rest sig s} (pc : m.task t = .deleted false now r rest) (hsig : sig ≠ .cancelled)
      (obtains : Obtains cfg (m.unlock r) now rest s) : Visits cfg m (.resume t sig) now s

theorem expired_iff {cfg : Config} {m : Manager D A} {now : ℕ} {s : Ref} :
    m.expired cfg now s = true ↔
      m.registered s = true ∧ (m.heap s).lastUsed + cfg.inactivityTimeout < now := by
  simp [expired]

section Deletions
variable {fs : Storage D A} {cfg : Config} {m m' : Manager D A} {t : TaskId} {u : Use} {s : Ref}
  {now : ℕ} {left : List Ref}

/-- Outside the sweep no task comes to await a deletion. -/
def Undeleting (pc : Pc A) : Prop := ∀ c now s rest, pc ≠ .deletion c now s rest

theorem Leaves.undeleting {how : Ending} (leaves : Leaves m t u how m') : Undeleting (m'.task t) :=
  leaves.task (by simp [Undeleting]) (fun u => by cases u <;> simp [Undeleting,Use.started])
    (by simp [Undeleting])

theorem Enters.undeleting {id : SessionId} (enters : Enters m t u id m') :
    Undeleting (m'.task t) :=
  enters.task (by simp [Undeleting]) (fun u => by cases u <;> simp [Undeleting,Use.started])
    (by simp [Undeleting])

theorem Created.undeleting {k : Creator A} (created : Created m t s k m') :
    Undeleting (m'.task t) :=
  created.task (by simp [Undeleting]) (fun u => by cases u <;> simp [Undeleting,Use.started])
    (by simp [Undeleting]) (by simp [Undeleting])

theorem Sweeps.deletion (sweeps : Sweeps cfg m t now left m') {c : Bool} {now' : ℕ}
    {rest : List Ref} (hpc : m'.task t = .deletion c now' s rest) :
    now' = now ∧ Obtains cfg m now left s ∧ (m.heap s).lastUsed + cfg.inactivityTimeout < now := by
  cases sweeps with
  | passed | waits =>
    simp only [finish,setPc_task,if_pos] at hpc
    cases hpc
  | deletes reaches free expired =>
    simp only [setPc_task,if_pos] at hpc
    cases hpc
    obtain ⟨hr,hlate⟩ := expired_iff.mp expired
    exact ⟨rfl,⟨hr,free,_,reaches⟩,hlate⟩

/-- The sweep deletes the expired ones among the sessions whose lock it gets. Only a first
cancellation comes back to the same deletion. -/
theorem Resumes.deletion {sig : Signal} (resumes : Resumes fs cfg m t sig m') {c : Bool}
    {rest : List Ref} (hpc : m'.task t = .deletion c now s rest) :
    (Visits cfg m (.resume t sig) now s ∧ (m.heap s).lastUsed + cfg.inactivityTimeout < now) ∨
      c = true ∧ m.task t = .deletion false now s rest := by
  cases resumes with
  | quotaSet _ created => exact absurd hpc (created.undeleting _ _ _ _)
  | seedCleans _ _ hs locks =>
    exact absurd hpc (locks.task (P := Undeleting) (by simp [Undeleting])
      (fun u => by cases u <;> simp [Undeleting,Use.started]) _ _ _ _)
  | @entered u =>
    simp only [setPc_task,if_pos] at hpc
    cases u <;> cases hpc
  | retired _ _ _ leaves | waitedTooLong _ leaves | waitCancelled _ leaves | left _ leaves
  | removed _ leaves => exact absurd hpc (leaves.undeleting _ _ _ _)
  | swept pc granted expired =>
    simp only [setPc_task,if_pos] at hpc
    cases hpc
    obtain ⟨hr,hlate⟩ := expired_iff.mp expired
    exact .inl ⟨.granted pc granted hr,hlate⟩
  | skipped pc granted fresh sweeps =>
    obtain ⟨rfl,obtains,hlate⟩ := sweeps.deletion hpc
    exact .inl ⟨.skipped pc granted fresh obtains,by simpa [unlock,take] using hlate⟩
  | passed pc sweeps =>
    obtain ⟨rfl,obtains,hlate⟩ := sweeps.deletion hpc
    exact .inl ⟨.passed pc obtains,by simpa [dequeue] using hlate⟩
  | sweepWent pc hsig sweeps =>
    obtain ⟨rfl,obtains,hlate⟩ := sweeps.deletion hpc
    exact .inl ⟨.went pc hsig obtains,by simpa [unlock] using hlate⟩
  | shielded pc =>
    simp only [setPc_task,if_pos] at hpc
    cases hpc
    exact .inr ⟨rfl,pc⟩
  | quotaFailed | undone | undoAbandoned | undoFailed | seedCancelled | seeded | seedPart
  | seedFailed | sweepCancelled | deleted | sweepEnded =>
    simp only [undo,finish,setPc_task,if_pos] at hpc
    cases hpc

theorem Steps.deletion {e : Event D A} (steps : Steps fs cfg m e m') (ht : e.task = some t)
    {c : Bool} {rest : List Ref} (hpc : m'.task t = .deletion c now s rest) :
    (Visits cfg m e now s ∧ (m.heap s).lastUsed + cfg.inactivityTimeout < now) ∨
      c = true ∧ m.task t = .deletion false now s rest := by
  cases steps <;> cases ht
  case create creates =>
    cases creates with
    | plain _ created => exact absurd hpc (created.undeleting _ _ _ _)
    | refused | exhausted | quota =>
      simp only [finish,setPc_task,if_pos] at hpc
      cases hpc
  case request enters => exact absurd hpc (enters.undeleting _ _ _ _)
  case delete enters => exact absurd hpc (enters.undeleting _ _ _ _)
  case sweep sweeps =>
    obtain ⟨rfl,obtains,hlate⟩ := sweeps.deletion hpc
    exact .inl ⟨.begins obtains,hlate⟩
  case resume resumes => exact resumes.deletion hpc

theorem sweepFrom_obtains (obtains : Obtains cfg m now left s)
    (hlate : (m.heap s).lastUsed + cfg.inactivityTimeout < now) :
    ∃ rest, (sweepFrom cfg t now left m).task t = .deletion false now s rest := by
  obtain ⟨hr,free,rest,reaches⟩ := obtains
  refine ⟨rest,?_⟩
  rw [sweepFrom_reaches t reaches free (expired_iff.mpr ⟨hr,hlate⟩),setPc_task,if_pos rfl]

/-- A step starts a deletion just when its sweep visits a session with a stamp too old. -/
theorem startsDeletion_iff (hc : Coherent cfg m) {e : Event D A}
    (hstep : m.step fs cfg e = some m') : StartsDeletion m m' s ↔
      ∃ now, Visits cfg m e now s ∧ (m.heap s).lastUsed + cfg.inactivityTimeout < now := by
  have steps := step_cases hc.registry hstep
  constructor
  · rintro ⟨t,now,rest,hpc,hdel⟩
    refine ⟨now,?_⟩
    by_cases ht : e.task = some t
    · exact (steps.deletion ht hpc).resolve_right (by simp)
    · rw [steps.others hc.registry ht] at hpc
      exact absurd (by rw [hpc]; rfl) hdel
  · rintro ⟨now,visits,hlate⟩
    cases visits with
    | @begins t s obtains =>
      simp only [step] at hstep
      split_ifs at hstep with hi
      cases hstep
      obtain ⟨rest,hpc⟩ := sweepFrom_obtains (t := t) obtains hlate
      exact ⟨t,_,rest,hpc,by rw [(idle_iff t).mp hi]; simp [Pc.deleting]⟩
    | @granted t now s rest pc granted hs =>
      have he := expired_iff.mpr ⟨hs,hlate⟩
      simp only [step,resume,pc,granted,if_true,sweepLocked,take_expired,he] at hstep
      cases hstep
      exact ⟨t,now,rest,by rw [setPc_task,if_pos rfl],by rw [pc]; simp [Pc.deleting]⟩
    | @skipped t now r rest s pc granted fresh obtains =>
      simp only [step,resume,pc,granted,if_true,sweepLocked,take_expired,fresh] at hstep
      cases hstep
      obtain ⟨rest,hpc⟩ := sweepFrom_obtains (t := t) obtains (by simpa [unlock,take] using hlate)
      exact ⟨t,now,rest,hpc,by rw [pc]; simp [Pc.deleting]⟩
    | @passed t now r rest s pc obtains =>
      simp only [step,resume,pc] at hstep
      cases hstep
      obtain ⟨rest,hpc⟩ := sweepFrom_obtains (t := t) obtains (by simpa [dequeue] using hlate)
      exact ⟨t,now,rest,hpc,by rw [pc]; simp [Pc.deleting]⟩
    | @went t now r rest sig s pc hsig obtains =>
      simp only [step,resume,pc,hsig,false_or,reduceCtorEq,if_false] at hstep
      cases hstep
      obtain ⟨rest,hpc⟩ := sweepFrom_obtains (t := t) obtains (by simpa [unlock] using hlate)
      exact ⟨t,now,rest,hpc,by rw [pc]; simp [Pc.deleting]⟩

end Deletions

/-- What the stamps say about a run: they are no earlier than any block, and a session somebody
has been inside of carries the time at which a block began. -/
structure Stamped (fs : Storage D A) (cfg : Config) (h : List (Manager D A × Event D A))
    (m : Manager D A) : Prop where
  clock : ∀ p ∈ h, p.1.clock ≤ m.clock
  inside_lt : ∀ p ∈ h, ∀ t s, (p.1.task t).inside = some s → s < m.next
  begun_lt : ∀ p ∈ h, ∀ s, Begins fs cfg p s → s < m.next
  begun : ∀ p ∈ h, ∀ s, Begins fs cfg p s → p.1.clock ≤ (m.heap s).lastUsed
  used : ∀ p ∈ h, ∀ t s, (p.1.task t).inside = some s →
    ∃ q ∈ h, Begins fs cfg q s ∧ q.1.clock = (m.heap s).lastUsed
  busy : ∀ t s, (m.task t).inside = some s →
    ∃ q ∈ h, Begins fs cfg q s ∧ q.1.clock = (m.heap s).lastUsed

section Stamps
variable {fs : Storage D A} {cfg : Config} {m m' : Manager D A} {t : TaskId} {u : Use} {s : Ref}

theorem Effect.clock {e : Event D A} (effect : Effect fs cfg m e m') :
    m.clock ≤ m'.clock ∧ (e.task ≠ Option.none → m'.clock = m.clock) := by
  cases effect with
  | none | dir | abandonedEnd | abandon | mkdtemp | plain => exact ⟨Nat.le_refl _,fun _ => rfl⟩
  | tick => exact ⟨Nat.le_add_right _ _,fun he => absurd rfl he⟩
  | made _ allocated =>
    obtain ⟨free,nextId,rfl⟩ := allocateProjectId_frame allocated
    exact ⟨Nat.le_refl _,fun _ => rfl⟩
  | undo => rw [releaseProjectId_eq]; exact ⟨Nat.le_refl _,fun _ => rfl⟩
  | removed =>
    obtain ⟨free,dir,abandoned,he⟩ := afterRemoval_frame m _ _
    rw [he]
    exact ⟨Nat.le_refl _,fun _ => rfl⟩

/-- The block a task leaves is not followed by the same await again. -/
theorem Leaves.left_block {how : Ending} {u' : Use} {s' : Ref} (hu : ∀ r, u' ≠ .cleanup r)
    (leaves : Leaves m t u how m') : m'.task t ≠ u'.started s' := by
  cases leaves with
  | ends | gone =>
    rw [finish,setPc_task,if_pos rfl]
    cases u' <;> simp [Use.started]
  | cleans _ _ locks =>
    cases locks with
    | waits =>
      rw [setPc_task,if_pos rfl]
      cases u' <;> simp [Use.started]
    | enters =>
      rw [setPc_task,if_pos rfl]
      cases u' with
      | cleanup r => exact absurd rfl (hu r)
      | request | delete | execute => simp [Use.started]

/-- A task inside its block goes on somewhere else. -/
theorem Resumes.left_block {sig : Signal} (hc : Coherent cfg m)
    (resumes : Resumes fs cfg m t sig m') (hpc : m.task t = u.started s) :
    m'.task t ≠ u.started s := by
  have hsound := hc.sound t
  cases resumes with
  | left pc leaves =>
    have hu := hpc.symm.trans pc
    refine leaves.left_block fun r hr => ?_
    rw [hr] at hu
    cases hu
  | @removed u' s' sig m' pc leaves =>
    rw [pc] at hsound hpc
    cases leaves with
    | ends | gone =>
      rw [finish,setPc_task,if_pos rfl]
      cases u <;> simp [Use.started]
    | cleans he =>
      have hb := hsound.begun u' s' (.inr rfl)
      rw [he] at hb
      cases hb
  | _ => cases u <;> simp_all [Use.started]

/-- The stamp of a session changes just when a task begins its block, to the time of that step. -/
theorem Steps.stamps {e : Event D A} (hc : Coherent cfg m) (hstep : m.step fs cfg e = some m')
    (s : Ref) : (Begins fs cfg (m,e) s ∧ (m'.heap s).lastUsed = m.clock) ∨
      (¬ Begins fs cfg (m,e) s ∧ (s < m.next → (m'.heap s).lastUsed = (m.heap s).lastUsed) ∧
        ∀ t, (m'.task t).inside = some s → (m.task t).inside = some s) := by
  have steps := step_cases hc.registry hstep
  obtain ⟨m₁,effect,settles⟩ := steps.effect hc.registry
  have hothers (t : TaskId) (ht : e.task ≠ some t) := steps.others hc.registry ht
  have hunbegun (hnew : ∀ t, (m'.task t).inside = some s → m'.task t = m.task t) :
      ¬ Begins fs cfg (m,e) s := by
    rintro ⟨m₂,t,hstep₂,hin,hne⟩
    cases hstep.symm.trans hstep₂
    exact hne (hnew t hin)
  cases hactor : e.task with
  | none =>
    rw [hactor] at settles
    cases settles
    have hsame (t : TaskId) : m'.task t = m.task t := hothers t (by simp [hactor])
    exact .inr ⟨hunbegun fun t _ => hsame t,fun hs => by rw [effect.heap hs],fun t hin => by rwa [hsame] at hin⟩
  | some t₀ =>
    have hsame (t : TaskId) (ht : t ≠ t₀) : m'.task t = m.task t :=
      hothers t (by simpa [hactor,eq_comm] using ht)
    rw [hactor] at settles
    cases settles with
    | outside frame stamps pc =>
      have hkeep (t : TaskId) (hin : (m'.task t).inside = some s) : m'.task t = m.task t := by
        refine hsame t ?_
        rintro rfl
        rw [pc] at hin
        cases hin
      exact .inr ⟨hunbegun hkeep,fun hs => (stamps s).trans (by rw [effect.heap hs]),
        fun t hin => hkeep t hin ▸ hin⟩
    | @inside _ _ _ u s₀ frame _ stamp stamps pc =>
      by_cases hs : s = s₀
      · subst hs
        refine .inl ⟨⟨m',t₀,hstep,by rw [pc]; simp,fun he => ?_⟩,?_⟩
        · have hpc : m.task t₀ = u.started s := he.symm.trans pc
          have hidle : m.task t₀ ≠ .idle := by
            rw [hpc]
            cases u <;> simp [Use.started]
          obtain ⟨sig,rfl,resumes⟩ := steps.resumes hactor hidle
          exact resumes.left_block hc hpc pc
        · exact stamp.trans (effect.clock.2 (by simp [hactor]))
      · have hkeep (t : TaskId) (hin : (m'.task t).inside = some s) : m'.task t = m.task t := by
          refine hsame t ?_
          rintro rfl
          rw [pc,Use.started_inside,Option.some.injEq] at hin
          exact hs hin.symm
        exact .inr ⟨hunbegun hkeep,fun hlt => (stamps s hs).trans (by rw [effect.heap hlt]),
          fun t hin => hkeep t hin ▸ hin⟩

theorem Stamped.step {h : List (Manager D A × Event D A)} (hc : Coherent cfg m)
    (hst : Stamped fs cfg h m) {e : Event D A} (hstep : m.step fs cfg e = some m') :
    Stamped fs cfg ((m,e)::h) m' := by
  have steps := step_cases hc.registry hstep
  have hforward := (steps.forward hc.registry).1
  have hclock : m.clock ≤ m'.clock := by
    obtain ⟨m₁,effect,settles⟩ := steps.effect hc.registry
    rw [settles.frame.clock]
    exact effect.clock.1
  have hinside (t : TaskId) (s : Ref) (hin : (m.task t).inside = some s) : s < m.next :=
    (hc.sound t).session_lt s (Pc.session_of_holds (Pc.holds_of_inside hin))
  have hbegun (s : Ref) (hb : Begins fs cfg (m,e) s) : s < m'.next := by
    obtain ⟨m₂,t,hstep₂,hin,-⟩ := hb
    cases hstep.symm.trans hstep₂
    exact ((hc.step hstep).sound t).session_lt s (Pc.session_of_holds (Pc.holds_of_inside hin))
  -- a block that was recorded before keeps a witness, the old one or the step itself
  have hkeep (s : Ref) (hs : s < m.next)
      (hold : ∃ q ∈ h, Begins fs cfg q s ∧ q.1.clock = (m.heap s).lastUsed) :
      ∃ q ∈ (m,e)::h, Begins fs cfg q s ∧ q.1.clock = (m'.heap s).lastUsed := by
    rcases Steps.stamps hc hstep s with ⟨hb,hl⟩ | ⟨-,hl,-⟩
    · exact ⟨(m,e),List.mem_cons_self,hb,hl.symm⟩
    · obtain ⟨q,hq,hb,hqc⟩ := hold
      exact ⟨q,List.mem_cons_of_mem _ hq,hb,hqc.trans (hl hs).symm⟩
  refine ⟨?_,?_,?_,?_,?_,?_⟩
  · rw [List.forall_mem_cons]
    exact ⟨hclock,fun p hp => Nat.le_trans (hst.clock p hp) hclock⟩
  · rw [List.forall_mem_cons]
    exact ⟨fun t s hin => Nat.lt_of_lt_of_le (hinside t s hin) hforward,
      fun p hp t s hin => Nat.lt_of_lt_of_le (hst.inside_lt p hp t s hin) hforward⟩
  · rw [List.forall_mem_cons]
    exact ⟨hbegun,fun p hp s hb => Nat.lt_of_lt_of_le (hst.begun_lt p hp s hb) hforward⟩
  · rw [List.forall_mem_cons]
    constructor
    · intro s hb
      rcases Steps.stamps hc hstep s with ⟨-,hl⟩ | ⟨hn,-,-⟩
      · exact Nat.le_of_eq hl.symm
      · exact absurd hb hn
    · intro p hp s hb
      rcases Steps.stamps hc hstep s with ⟨-,hl⟩ | ⟨-,hl,-⟩
      · rw [hl]
        exact hst.clock p hp
      · rw [hl (hst.begun_lt p hp s hb)]
        exact hst.begun p hp s hb
  · rw [List.forall_mem_cons]
    exact ⟨fun t s hin => hkeep s (hinside t s hin) (hst.busy t s hin),
      fun p hp t s hin => hkeep s (hst.inside_lt p hp t s hin) (hst.used p hp t s hin)⟩
  · intro t s hin
    rcases Steps.stamps hc hstep s with ⟨hb,hl⟩ | ⟨hn,hl,hin'⟩
    · exact ⟨(m,e),List.mem_cons_self,hb,hl.symm⟩
    · have hold := hin' t hin
      exact hkeep s (hinside t s hold) (hst.busy t s hold)

theorem stamped_of_run {h : List (Manager D A × Event D A)}
    (run : Machine.Run (step fs cfg) (init cfg) h m) : Stamped fs cfg h m := by
  induction run with
  | start => exact ⟨by simp,by simp,by simp,by simp,by simp,by simp [Manager.init,Pc.inside]⟩
  | next run taken ih => exact ih.step (coherent_of_run run) taken

end Stamps

/-- In every step of every run, the sweep deletes only sessions nobody was inside of in the last
`T`, just when every session it visits that somebody was inside of in the last `T` had a block
begin at most `T` before the pass. -/
theorem sweep_idle_iff {fs : Storage D A} {cfg : Config} {m m' : Manager D A} {e : Event D A}
    {h : List (Manager D A × Event D A)} (run : Machine.Run (step fs cfg) (init cfg) h m)
    (taken : step fs cfg m e = some m') :
    (∀ s, StartsDeletion m m' s → IdleFor cfg.inactivityTimeout ((m,e)::h) m s) ↔
      ∀ now s, Visits cfg m e now s → IdleFor cfg.inactivityTimeout ((m,e)::h) m s ∨
        ∃ q ∈ h, Begins fs cfg q s ∧ now ≤ q.1.clock + cfg.inactivityTimeout := by
  have hc := coherent_of_run run
  have hst := stamped_of_run run
  constructor
  · intro hdel now s hv
    by_cases hlate : (m.heap s).lastUsed + cfg.inactivityTimeout < now
    · exact .inl (hdel s ((startsDeletion_iff hc taken).mpr ⟨now,hv,hlate⟩))
    · by_cases hidle : IdleFor cfg.inactivityTimeout ((m,e)::h) m s
      · exact .inl hidle
      · -- somebody was inside, so the stamp is the beginning of a block
        simp only [IdleFor,not_forall,not_not] at hidle
        obtain ⟨p,hp,-,t,hin⟩ := hidle
        have hwit : ∃ q ∈ h, Begins fs cfg q s ∧ q.1.clock = (m.heap s).lastUsed := by
          rcases List.mem_cons.mp hp with rfl | hp
          · exact hst.busy t s hin
          · exact hst.used p hp t s hin
        obtain ⟨q,hq,hb,hqc⟩ := hwit
        exact .inr ⟨q,hq,hb,by omega⟩
  · intro hvis s hdel
    obtain ⟨now,hv,hlate⟩ := (startsDeletion_iff hc taken).mp hdel
    rcases hvis now s hv with hidle | ⟨q,hq,hb,hnow⟩
    · exact hidle
    · have hle := hst.begun q hq s hb
      omega

/-- A session that has been idle for five seconds, and the pass that deletes it. -/
theorem sweep_idle_iff_idle_session : ∃ h m m',
    Machine.Run (step Storage.log Config.tight) (init Config.tight) h m ∧
      StartsDeletion m m' 0 ∧
        ((∀ s, StartsDeletion m m' s → IdleFor 1 ((m,.sweep 2)::h) m s) ↔
          ∀ now s, Visits Config.tight m (.sweep 2) now s → IdleFor 1 ((m,.sweep 2)::h) m s ∨
            ∃ q ∈ h, Begins Storage.log Config.tight q s ∧ now ≤ q.1.clock + 1) := by
  have hrun : ∃ h m m', Machine.replay (step Storage.log Config.tight) [] (init Config.tight)
      [.create 0 .create true,.resume 0 .ok,.request 1 0,.resume 1 .ok,.tick 5] = some (h,m) ∧
        step Storage.log Config.tight m (.sweep 2) = some m' ∧
          m'.task 2 = .deletion false 5 0 [] ∧ m.task 2 = .idle :=
    ⟨_,_,_,rfl,rfl,rfl,rfl⟩
  obtain ⟨h,m,m',hr,taken,hpc,hidle⟩ := hrun
  have hstart : StartsDeletion m m' 0 := ⟨2,5,[],hpc,by rw [hidle]; simp [Pc.deleting]⟩
  exact ⟨h,m,m',Machine.replay_run hr,hstart,sweep_idle_iff (Machine.replay_run hr) taken⟩

/-- A request that takes five seconds is followed at once by the deletion of its session. -/
theorem long_request_swept : ¬ ∀ h m e m',
    Machine.Run (step Storage.log Config.tight) (init Config.tight) h m →
      step Storage.log Config.tight m e = some m' →
        ∀ s, StartsDeletion m m' s → IdleFor 1 ((m,e)::h) m s := by
  have hrun : ∃ h m m', Machine.replay (step Storage.log Config.tight) [] (init Config.tight)
      [.create 0 .create true,.resume 0 .ok,.request 1 0,.tick 5,.resume 1 .ok] = some (h,m) ∧
        step Storage.log Config.tight m (.sweep 2) = some m' ∧
          m'.task 2 = .deletion false 5 0 [] ∧ m.task 2 = .idle ∧ m.clock = 5 ∧
            h.any (fun p => p.1.clock == 5 && (p.1.task 1).inside == some 0) = true :=
    ⟨_,_,_,rfl,rfl,rfl,rfl,rfl,rfl⟩
  obtain ⟨h,m,m',hr,taken,hpc,hidle,hclock,hany⟩ := hrun
  obtain ⟨p,hp,hb⟩ := List.any_eq_true.mp hany
  simp only [Bool.and_eq_true,beq_iff_eq] at hb
  have hstart : StartsDeletion m m' 0 := ⟨2,5,[],hpc,by rw [hidle]; simp [Pc.deleting]⟩
  intro hall
  exact hall h m _ m' (Machine.replay_run hr) taken 0 hstart p (List.mem_cons_of_mem _ hp)
    (by omega) 1 hb.2

end Manager
end CodeExecutorApi
