import CodeExecutorApi.Sessions.Coherence
import CodeExecutorApi.Sessions.Effects

/-! Session slots over whole runs. The registry keeps to its capacity, and a handler that ends
without a session for its client leaves none behind, unless it was cancelled during the seeding or
gave up waiting for the lock of the session it wanted to delete. -/
namespace CodeExecutorApi
namespace Manager
variable {D A : Type}

/-- Capacity is kept, and a session is registered only if its creator handed it out or still runs. -/
structure SlotsAccounted (cfg : Config) (m : Manager D A) : Prop where
  capacity : m.sessions.length ≤ cfg.maxSessions
  ended : ∀ t s how, m.task t = .done (some s) how → how ≠ .handedOut → m.registered s = false

/-- A handler ends here although the session it created is registered: its seeding is cancelled,
which no `except Exception` sees, or its own delete does not get the lock. -/
def leaksSlot (m : Manager D A) : Event D A → Bool
  | .resume t sig => match m.task t with
    | .seed s _ => sig == .cancelled && m.registered s
    | .acquire (.cleanup _) s => (sig == .timeout || sig == .cancelled) && m.registered s
    | _ => false
  | _ => false

/-- If task `t` has ended without handing its session out, the session is unregistered. -/
def EndedClean (m : Manager D A) (t : TaskId) : Prop :=
  ∀ s how, m.task t = .done (some s) how → how ≠ .handedOut → m.registered s = false

section Ends
variable {fs : Storage D A} {cfg : Config} {m m' : Manager D A} {t : TaskId} {u : Use} {s : Ref}

/-- A task suspended again has not ended. -/
theorem EndedClean.setPc {pc : Pc A} (h : ∀ s how, pc ≠ .done (some s) how) :
    EndedClean (m.setPc t pc) t := by
  intro s how he
  rw [setPc_task,if_pos rfl] at he
  exact absurd he (h s how)

theorem EndedClean.finish {c : Option Ref} {how : Ending}
    (h : ∀ s, c = some s → how ≠ .handedOut → m.registered s = false) :
    EndedClean (m.finish t c how) t := by
  intro s how' he hh
  rw [Manager.finish,setPc_task,if_pos rfl] at he
  cases he
  exact h s rfl hh

theorem Locks.ended (locks : Locks m t u s m') : EndedClean m' t := by
  cases locks with
  | waits => exact .setPc (by simp)
  | enters => exact .setPc (by cases u <;> simp [Use.started])

theorem Leaves.ended {how : Ending} (hu : ∀ s, u = .cleanup s → m.registered s = false)
    (leaves : Leaves m t u how m') : EndedClean m' t := by
  cases leaves with
  | ends he =>
    refine .finish fun s hs _ => ?_
    cases u with
    | request | delete => cases hs
    | execute => exact absurd rfl (he _)
    | cleanup =>
      cases hs
      exact hu _ rfl
  | gone _ hs =>
    refine .finish ?_
    rintro _ ⟨⟩ _
    exact hs
  | cleans _ _ locks => exact locks.ended

theorem Enters.ended {id : SessionId} (hu : ∀ s, u ≠ .cleanup s) (enters : Enters m t u id m') :
    EndedClean m' t := by
  cases enters with
  | missing _ leaves => exact leaves.ended fun s hs => absurd hs (hu s)
  | locks _ locks => exact locks.ended

theorem Sweeps.ended {now : ℕ} {left : List Ref} (sweeps : Sweeps cfg m t now left m') :
    EndedClean m' t := by
  cases sweeps with
  | passed => exact .finish (by simp)
  | waits | deletes => exact .setPc (by simp)

theorem Created.ended {k : Creator A} (created : Created m t s k m') : EndedClean m' t := by
  cases created with
  | handedOut => exact .finish fun _ _ hh => absurd rfl hh
  | seeds => exact .setPc (by simp)
  | executes enters => exact enters.ended (by simp)

theorem Resumes.ended {sig : Signal} (h : Coherent cfg m)
    (hleak : m.leaksSlot (.resume t sig) = false) (resumes : Resumes fs cfg m t sig m') :
    EndedClean m' t := by
  have hsound := h.sound t
  cases resumes with
  | quotaSet _ created => exact created.ended
  | quotaFailed => exact .setPc (by simp)
  | undone pc | undoAbandoned pc | undoFailed pc =>
    refine .finish ?_
    rintro _ ⟨⟩ _
    exact hsound.undone _ pc
  | seedCancelled pc =>
    refine .finish ?_
    rintro _ ⟨⟩ _
    simpa [leaksSlot,pc] using hleak
  | seeded => exact .finish fun _ _ hh => absurd rfl hh
  | seedFailed _ _ hs =>
    refine .finish ?_
    rintro _ ⟨⟩ _
    exact hs
  | seedCleans _ _ _ locks => exact locks.ended
  | @entered u => exact .setPc (by cases u <;> simp [Use.started])
  | seedPart | swept | shielded | deleted => exact .setPc (by simp)
  | retired pc _ hs leaves =>
    refine leaves.ended ?_
    rintro r rfl
    rw [pc] at hsound
    simpa [hsound.created _ _ r rfl rfl rfl] using hs
  | waitedTooLong pc leaves | waitCancelled pc leaves =>
    refine leaves.ended ?_
    rintro r rfl
    rw [pc] at hsound
    simpa [leaksSlot,pc,hsound.created _ _ r rfl rfl rfl] using hleak
  | left pc leaves =>
    -- the block of a delete is the removal itself
    refine leaves.ended ?_
    rintro r rfl
    rw [pc] at hsound
    cases hsound.begun _ _ (.inl rfl)
  | removed pc leaves =>
    refine leaves.ended ?_
    rintro r rfl
    rw [pc] at hsound
    rw [unlock_registered,hsound.created _ _ r rfl rfl rfl]
    exact h.registry.afterRemoval_popped _ _
  | skipped _ _ _ sweeps | passed _ sweeps | sweepWent _ _ sweeps => exact sweeps.ended
  | sweepCancelled | sweepEnded => exact .finish (by simp)

/-- Whoever ends in a step without a leak leaves no session behind. -/
theorem Steps.ended {e : Event D A} (h : Coherent cfg m) (hleak : m.leaksSlot e = false)
    (steps : Steps fs cfg m e m') (ht : e.task = some t) : EndedClean m' t := by
  cases steps <;> cases ht
  case create creates =>
    cases creates with
    | refused | exhausted => exact .finish (by simp)
    | quota => exact .setPc (by simp)
    | plain _ created => exact created.ended
  case request enters => exact enters.ended (by simp)
  case delete enters => exact enters.ended (by simp)
  case sweep sweeps => exact sweeps.ended
  case resume resumes => exact resumes.ended h hleak

end Ends

section Capacity
variable {fs : Storage D A} {cfg : Config} {m m' : Manager D A}

theorem pop_length (m : Manager D A) (s : Ref) : (m.pop s).sessions.length ≤ m.sessions.length :=
  List.length_filter_le _ _

theorem Steps.capacity {e : Event D A} (h : Registry cfg m) (steps : Steps fs cfg m e m')
    (hm : m.sessions.length ≤ cfg.maxSessions) : m'.sessions.length ≤ cfg.maxSessions := by
  obtain ⟨m₁,effect,settles⟩ := steps.effect h
  rw [settles.frame.sessions]
  have hreg {m₂ : Manager D A} (hs : m₂.sessions = m.sessions) (s : Ref) (x : Session)
      (room : m.sessions.length < cfg.maxSessions) :
      (m₂.register s x).sessions.length ≤ cfg.maxSessions := by
    rw [register,hs,List.length_append,List.length_singleton]
    exact room
  cases effect with
  | none | tick | dir | abandonedEnd | abandon | mkdtemp => exact hm
  | made room allocated =>
    obtain ⟨free,nextId,rfl⟩ := allocateProjectId_frame allocated
    exact hreg rfl _ _ room
  | plain room => exact hreg rfl _ _ room
  | undo =>
    rw [releaseProjectId_eq]
    exact Nat.le_trans (pop_length m _) hm
  | removed =>
    obtain ⟨free,dir,abandoned,he⟩ := afterRemoval_frame m _ _
    rw [he]
    exact Nat.le_trans (pop_length m _) hm

end Capacity

section Leaks
variable {fs : Storage D A} {cfg : Config} {m m' : Manager D A} {e : Event D A}

theorem SlotsAccounted.step (hc : Coherent cfg m) (h : SlotsAccounted cfg m)
    (hleak : m.leaksSlot e = false) (hstep : m.step fs cfg e = some m') :
    SlotsAccounted cfg m' := by
  have steps := step_cases hc.registry hstep
  refine ⟨steps.capacity hc.registry h.capacity,fun t s how he hh => ?_⟩
  by_cases ht : e.task = some t
  · exact steps.ended hc hleak ht s how he hh
  · rw [steps.others hc.registry ht] at he
    have hs := h.ended t s how he hh
    have hlt := (hc.sound t).session_lt s (by rw [he]; rfl)
    rw [Bool.eq_false_iff] at hs ⊢
    exact fun hr => hs ((steps.forward hc.registry).2 s hlt hr)

theorem SlotsAccounted.init (cfg : Config) : SlotsAccounted cfg (init cfg : Manager D A) :=
  ⟨by simp [Manager.init],by simp [Manager.init]⟩

end Leaks

end Manager
end CodeExecutorApi
