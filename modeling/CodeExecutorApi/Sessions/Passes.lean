import CodeExecutorApi.Sessions.SweepPass

/-! How a sweep pass goes on, and how it ends when it is cancelled. -/
namespace CodeExecutorApi

/-- A sweep pass that was cancelled and only waits for its removal. -/
def Pc.stopping {A : Type} : Pc A → Bool
  | .deletion true _ _ _ | .deleted true _ _ _ | .done _ .cancelled => true
  | _ => false

/-- A sweep pass that goes on or has ended. -/
def Pc.Passing {A : Type} (pc : Pc A) : Prop := pc.sweeping = true ∨ ∃ c how, pc = .done c how

namespace Manager
variable {D A : Type} {fs : Storage D A} {cfg : Config} {m m' : Manager D A} {e : Event D A}
  {t : TaskId} {sig : Signal}

theorem Creates.unsweeping {k : Creator A} (creates : Creates fs cfg m t k m') :
    Unsweeping (m'.task t) := by
  cases creates with
  | refused | exhausted | quota =>
    exact congrArg Pc.sweeping ((setPc_task _ _ _ _).trans (if_pos rfl))
  | plain _ created => exact created.unsweeping

/-- Only a sweep pass goes on as one. -/
theorem Steps.sweeping (hr : Registry cfg m) (steps : Steps fs cfg m e m') (he : ∀ t, e ≠ .sweep t)
    (h : (m'.task t).sweeping = true) : (m.task t).sweeping = true := by
  by_contra hno
  rw [Bool.not_eq_true] at hno
  refine Bool.eq_false_iff.mp (?_ : Unsweeping (m'.task t)) h
  by_cases ht : e.task = some t
  · cases steps with
    | create _ creates =>
      cases ht
      exact creates.unsweeping
    | request _ enters | delete _ enters =>
      cases ht
      exact enters.unsweeping
    | sweep => exact absurd rfl (he _)
    | resume resumes =>
      cases ht
      exact resumes.unsweeping hno
    | tick | write | erode | abandonedErode | abandonedEnd => cases ht
  · rwa [steps.others hr ht]

theorem Sweeps.passing {now : ℕ} {left : List Ref} (sweeps : Sweeps cfg m t now left m') :
    (m'.task t).Passing := by
  cases sweeps with
  | passed => exact .inr ⟨_,_,(setPc_task _ _ _ _).trans (if_pos rfl)⟩
  | waits | deletes => exact .inl (congrArg Pc.sweeping ((setPc_task _ _ _ _).trans (if_pos rfl)))

theorem Resumes.passing (h : (m.task t).sweeping = true) (resumes : Resumes fs cfg m t sig m') :
    (m'.task t).Passing := by
  cases resumes with
  | swept | shielded | deleted =>
    exact .inl (congrArg Pc.sweeping ((setPc_task _ _ _ _).trans (if_pos rfl)))
  | sweepCancelled | sweepEnded => exact .inr ⟨_,_,(setPc_task _ _ _ _).trans (if_pos rfl)⟩
  | skipped _ _ _ sweeps | passed _ sweeps | sweepWent _ _ sweeps => exact sweeps.passing
  | quotaSet pc | quotaFailed pc | undone pc | undoAbandoned pc | undoFailed pc | seedCancelled pc
  | seeded pc | seedPart pc | seedFailed pc | seedCleans pc | entered pc | retired pc
  | waitedTooLong pc | waitCancelled pc | left pc | removed pc =>
    rw [pc] at h
    cases h

/-- A task that is done takes no step. -/
theorem Steps.task_done (hr : Registry cfg m) (steps : Steps fs cfg m e m') {c : Option Ref}
    {how : Ending} (h : m.task t = .done c how) : m'.task t = .done c how := by
  by_cases ht : e.task = some t
  · obtain ⟨sig,rfl,resumes⟩ := steps.resumes ht (by rw [h]; simp)
    cases resumes <;> simp_all
  · rw [steps.others hr ht,h]

theorem Steps.passing (hr : Registry cfg m) (steps : Steps fs cfg m e m') (h : (m.task t).Passing) :
    (m'.task t).Passing := by
  rcases h with h | ⟨c,how,h⟩
  · by_cases ht : e.task = some t
    · obtain ⟨sig,rfl,resumes⟩ := steps.resumes ht (by intro hi; rw [hi] at h; cases h)
      exact resumes.passing h
    · exact .inl (by rwa [steps.others hr ht])
  · exact .inr ⟨c,how,steps.task_done hr h⟩

/-- A cancelled pass gives up, unless it waits for its removal. -/
theorem Resumes.told (h : (m.task t).sweeping = true) (resumes : Resumes fs cfg m t .cancelled m') :
    (m'.task t).stopping = true := by
  have hpc (m : Manager D A) (pc : Pc A) : (m.setPc t pc).task t = pc :=
    (setPc_task m t t pc).trans (if_pos rfl)
  cases resumes with
  | sweepCancelled | sweepEnded => exact congrArg Pc.stopping (hpc _ (.done none .cancelled))
  | shielded => exact congrArg Pc.stopping (hpc _ _)
  | deleted _ hsig =>
    obtain rfl := hsig rfl
    exact congrArg Pc.stopping (hpc _ _)
  | sweepWent _ hsig => exact absurd rfl hsig
  | quotaFailed pc | undoAbandoned pc | undoFailed pc | seedCancelled pc | seedFailed pc
  | seedCleans pc | waitCancelled pc | left pc | removed pc =>
    rw [pc] at h
    cases h

theorem Resumes.stopping (h : (m.task t).stopping = true) (resumes : Resumes fs cfg m t sig m') :
    (m'.task t).stopping = true := by
  have hpc (m : Manager D A) (pc : Pc A) : (m.setPc t pc).task t = pc :=
    (setPc_task m t t pc).trans (if_pos rfl)
  cases resumes with
  | @deleted cancelled _ _ _ _ pc =>
    rw [pc] at h
    cases cancelled with
    | true => exact congrArg Pc.stopping (hpc _ _)
    | false => cases h
  | sweepEnded => exact congrArg Pc.stopping (hpc _ (.done none .cancelled))
  | quotaSet pc | quotaFailed pc | undone pc | undoAbandoned pc | undoFailed pc | seedCancelled pc
  | seeded pc | seedPart pc | seedFailed pc | seedCleans pc | entered pc | retired pc
  | waitedTooLong pc | waitCancelled pc | left pc | removed pc | swept pc | skipped pc | passed pc
  | sweepCancelled pc | shielded pc | sweepWent pc =>
    rw [pc] at h
    cases h

theorem Steps.stopping (hr : Registry cfg m) (steps : Steps fs cfg m e m')
    (h : (m.task t).stopping = true) : (m'.task t).stopping = true := by
  by_cases ht : e.task = some t
  · obtain ⟨sig,rfl,resumes⟩ := steps.resumes ht (by intro hi; rw [hi] at h; cases h)
    exact resumes.stopping h
  · rwa [steps.others hr ht]

theorem Effect.registry (h : Registry cfg m) (effect : Effect fs cfg m e m') : Registry cfg m' := by
  cases effect with
  | none => exact h
  | tick | dir | abandonedEnd | abandon => exact h.congr rfl rfl fun _ => rfl
  | mkdtemp =>
    refine ⟨h.ids,fun p hp => ?_,h.nodup⟩
    have he := h.entries p hp
    exact ⟨Nat.lt_succ_of_lt he.1,he.2⟩
  | @made t k ok p m₁ _ allocated =>
    obtain ⟨free,nextId,rfl⟩ := allocateProjectId_frame allocated
    apply h.register <;> rfl
  | plain => exact h.made fs Option.none
  | undo =>
    rw [releaseProjectId_eq]
    exact (h.pop _).congr rfl rfl fun _ => rfl
  | removed => exact h.afterRemoval _ _

theorem Steps.registry (h : Registry cfg m) (steps : Steps fs cfg m e m') : Registry cfg m' := by
  obtain ⟨m₁,effect,settles⟩ := steps.effect h
  exact (effect.registry h).congr settles.frame.sessions settles.frame.next settles.frame.id

variable (fs) (cfg) in
/-- A cancelled pass goes on as soon as its removal ends, and then it is over. -/
theorem resume_deletion {now : ℕ} {s : Ref} {rest : List Ref}
    (hpc : m.task t = .deletion true now s rest) (sig : Signal) : ∃ m',
      m.step fs cfg (.resume t sig) = some m' ∧ m'.task t = .deleted true now s rest :=
  ⟨(m.afterRemoval s sig).setPc t (.deleted true now s rest),by simp [step,resume,hpc],
    (setPc_task _ _ _ _).trans (if_pos rfl)⟩

variable (fs) (cfg) in
theorem resume_deleted {now : ℕ} {s : Ref} {rest : List Ref}
    (hpc : m.task t = .deleted true now s rest) (sig : Signal) : ∃ m',
      m.step fs cfg (.resume t sig) = some m' ∧ m'.task t = .done none .cancelled :=
  ⟨(m.unlock s).finish t none .cancelled,by simp [step,resume,hpc],
    (setPc_task _ _ _ _).trans (if_pos rfl)⟩

variable (fs) (cfg) in
/-- Every await of a sweep pass can be cancelled. -/
theorem resume_cancelled (hpc : (m.task t).sweeping = true) :
    ∃ m', m.step fs cfg (.resume t .cancelled) = some m' := by
  refine Option.isSome_iff_exists.mp ?_
  cases hq : m.task t <;> rw [hq] at hpc <;> cases hpc
  all_goals simp [step,resume,hq]
  split_ifs <;> rfl

/-- A directory that was removed does not come back. -/
theorem Steps.dir_gone (hr : Registry cfg m) (steps : Steps fs cfg m e m') {s : Ref}
    (hmade : ∀ t k ok, e = .create t k ok → s ≠ m.next) (h : m.dir s = none) :
    m'.dir s = none := by
  obtain ⟨m₁,effect,settles⟩ := steps.effect hr
  rw [settles.frame.dir]
  have hset (r : Ref) (d : Option D) (hd : r = s → d = none) : (m.setDir r d).dir s = none := by
    rw [setDir_dir]
    split_ifs with hs
    · exact hd hs.symm
    · exact h
  have hnew {t : TaskId} {k : Creator A} {ok : Bool} (he : e = .create t k ok) :
      (m.mkdtemp fs).dir s = none := hset _ _ fun hs => absurd hs.symm (hmade t k ok he)
  cases effect with
  | none | tick | abandon => exact h
  | @dir e r d _ present =>
    refine hset r d ?_
    rintro rfl
    rw [h] at present
    exact Option.not_isSome_iff_eq_none.mp fun hd => Bool.noConfusion (present hd)
  | @abandonedEnd r removed =>
    refine hset r _ ?_
    rintro rfl
    rw [h]
    exact ite_self _
  | mkdtemp | plain => exact hnew rfl
  | made _ allocated =>
    obtain ⟨free,nextId,rfl⟩ := allocateProjectId_frame allocated
    exact hnew rfl
  | undo => rw [releaseProjectId_eq]; exact h
  | @removed t r sig =>
    cases sig with
    | ok =>
      rw [afterRemoval,releaseProjectId_eq]
      exact hset r none fun _ => rfl
    | osError | timeout | exception | cancelled => exact h

end Manager

end CodeExecutorApi
