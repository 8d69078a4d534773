import CodeExecutorApi.Sessions.Coherence
import CodeExecutorApi.Sessions.Effects

/-! The manager as a store: from its creation until its removal is begun, the directory of a session
holds what its seeds and the bodies under its lock wrote, in this order, and nothing else. -/
namespace CodeExecutorApi

namespace Manager
variable {D A : Type}

/-- What becomes of the contents `d` of a session with an event: a body under its lock writes, or
its creator goes on with the seeds. -/
def wrote (fs : Storage D A) (s : Ref) (m : Manager D A) (e : Event D A) (d : D) : D :=
  match e with
  | .write t d' =>
    match m.task t with
    | .body _ r => if r = s then d' else d
    | _ => d
  | .resume t .ok =>
    match m.task t with
    | .seed r (a::_) => if r = s then (fs.act a d).getD d else d
    | _ => d
  | _ => d

/-- All that was written to a session, the latest event first. -/
def written (fs : Storage D A) (s : Ref) : List (Manager D A × Event D A) → D
  | [] => fs.fresh
  | (m,e)::h => wrote fs s m e (written fs s h)

/-- The session can be used: it is registered, and nobody has begun to remove its directory. -/
structure InUse (m : Manager D A) (s : Ref) : Prop where
  registered : m.registered s = true
  unremoved : ∀ t, (m.task t).removing ≠ some s

section Contents
variable {fs : Storage D A} {cfg : Config} {m m' : Manager D A} {e : Event D A} {s : Ref}
  {t : TaskId} {h : List (Manager D A × Event D A)} {d : D}

theorem wrote_untouched (htouch : m.touching e ≠ some s) : wrote fs s m e d = d := by
  unfold wrote
  split
  · split
    · rw [if_neg]
      rintro rfl
      simp_all [touching]
    · rfl
  · split
    · rw [if_neg]
      rintro rfl
      simp_all [touching]
    · rfl
  · rfl

theorem Pc.session_of_removing {pc : Pc A} (h : pc.removing = some s) : pc.session = some s := by
  cases pc <;> first | exact h | cases h

theorem touching_lt (hc : Coherent cfg m) (htouch : m.touching e = some s) : s < m.next := by
  cases e <;> simp only [touching,reduceCtorEq] at htouch
  case write t d =>
    split at htouch <;> cases htouch
    rename_i hpc
    exact (hc.sound t).session_lt s (by rw [hpc]; rfl)
  case erode t d => exact (hc.sound t).session_lt s (Pc.session_of_removing htouch)
  case abandonedErode r d =>
    split_ifs at htouch with hr
    cases htouch
    exact (hc.abandoned _ hr).1
  case resume t sig =>
    split at htouch <;> cases htouch
    all_goals
      rename_i hpc
      exact (hc.sound t).session_lt s (by rw [hpc]; rfl)

/-- A task that waits for a removal goes on waiting, or the session is unregistered. -/
theorem Resumes.removal (hr : Registry cfg m) (hs : m.registered s = true)
    (sound : Pc.Sound m (m.task t)) (hrem : (m.task t).removing = some s) {sig : Signal}
    (resumes : Resumes fs cfg m t sig m') :
    m'.registered s = false ∨ (m'.task t).removing = some s := by
  cases resumes with
  | undone pc | undoAbandoned pc | undoFailed pc =>
    rw [pc] at hrem
    obtain rfl := Option.some.inj hrem
    rw [sound.undone _ pc] at hs
    cases hs
  | @removed u r sig m' pc leaves =>
    rw [pc] at hrem
    obtain rfl := Option.some.inj hrem
    rw [leaves.settles.frame.registered,unlock_registered]
    exact .inl (hr.afterRemoval_popped r sig)
  | @deleted cancelled now r rest sig pc =>
    rw [pc] at hrem
    obtain rfl := Option.some.inj hrem
    rw [setPc_registered]
    exact .inl (hr.afterRemoval_popped r sig)
  | shielded pc =>
    rw [pc] at hrem
    exact .inr (by rw [setPc_task,if_pos rfl]; exact hrem)
  | quotaSet pc | quotaFailed pc | seedCancelled pc | seeded pc | seedPart pc | seedFailed pc
  | seedCleans pc | entered pc | retired pc | waitedTooLong pc | waitCancelled pc | left pc
  | swept pc | skipped pc | passed pc | sweepCancelled pc | sweepEnded pc | sweepWent pc =>
    rw [pc] at hrem
    cases hrem

/-- A session that is in use after a step was in use before it, if it was made. -/
theorem InUse.back (hc : Coherent cfg m) (hstep : m.step fs cfg e = some m') (hlt : s < m.next)
    (hs : InUse m' s) : InUse m s := by
  have steps := step_cases hc.registry hstep
  have hreg : m.registered s = true := (steps.forward hc.registry).2 s hlt hs.registered
  refine ⟨hreg,fun t hrem => ?_⟩
  by_cases he : e.task = some t
  · have hbusy : m.task t ≠ .idle := by
      intro hpc
      rw [hpc] at hrem
      cases hrem
    obtain ⟨sig,rfl,resumes⟩ := steps.resumes he hbusy
    rcases resumes.removal hc.registry hreg (hc.sound t) hrem with hgone | hstill
    · rw [hs.registered] at hgone
      cases hgone
    · exact hs.unremoved t hstill
  · exact hs.unremoved t ((steps.others hc.registry he).symm ▸ hrem)

/-- A step that does not touch the directory of a session in use leaves it. -/
theorem Effect.dir_kept (hc : Coherent cfg m) (hs : InUse m s) (htouch : m.touching e ≠ some s)
    (effect : Effect fs cfg m e m') : m'.dir s = m.dir s := by
  have hlt := hc.registry.registered_lt hs.registered
  have hother {r : Ref} {d : Option D} (hr : r ≠ s) : (m.setDir r d).dir s = m.dir s := by
    rw [setDir_dir,if_neg hr.symm]
  cases effect with
  | none | tick | abandon => rfl
  | dir htouched => exact hother fun hr => htouch (hr ▸ htouched)
  | @abandonedEnd r removed hr =>
    refine hother ?_
    rintro rfl
    have hgone := (hc.abandoned _ hr).2
    rw [hs.registered] at hgone
    cases hgone
  | mkdtemp | plain => exact hother (Nat.ne_of_lt hlt).symm
  | made _ allocated =>
    obtain ⟨free,nextId,rfl⟩ := allocateProjectId_frame allocated
    exact hother (Nat.ne_of_lt hlt).symm
  | undo => rw [releaseProjectId_eq]; rfl
  | @removed t r sig pc =>
    have hr : r ≠ s := by
      rintro rfl
      refine hs.unremoved t ?_
      cases hpc : m.task t <;> rw [hpc] at pc <;> first | exact pc | cases pc
    cases sig with
    | ok =>
      rw [afterRemoval,releaseProjectId_eq]
      exact hother hr
    | osError | timeout | exception | cancelled => rfl

/-- The creator writes the next part of its seeds, if it can, or cleans up. -/
theorem dir_seed (hr : Registry cfg m) {sig : Signal} {parts : List A}
    (hpc : m.task t = .seed s parts) (hd : m.dir s = some d)
    (hstep : m.step fs cfg (.resume t sig) = some m') :
    m'.dir s = some (wrote fs s m (.resume t sig) d) := by
  have hclean : (m.cleanUp t s .sessionNotFound).dir s = some d := by
    rcases cleanUp_cases t hr s .sessionNotFound with ⟨-,he⟩ | ⟨hs,locks⟩
    · rw [he]
      exact hd
    · rw [(locks.settles hs).frame.dir]
      exact hd
  simp only [step,resume,hpc] at hstep
  cases sig with
  | cancelled =>
    cases parts <;> cases hstep <;> exact hd
  | osError | timeout | exception =>
    cases parts <;> cases hstep <;> exact hclean
  | ok =>
    simp only [wrote,hpc]
    cases parts with
    | nil =>
      cases hstep
      exact hd
    | cons a parts =>
      simp only [hd,Option.bind_some] at hstep
      change m'.dir s = some (if s = s then (fs.act a d).getD d else d)
      rw [if_pos rfl]
      cases hact : fs.act a d with
      | none =>
        rw [hact] at hstep
        cases hstep
        exact hclean
      | some d' =>
        rw [hact] at hstep
        cases hstep
        exact (setDir_dir m s s (some d')).trans (if_pos rfl)

/-- What one step does to the directory of a session in use. -/
theorem dir_step (hc : Coherent cfg m) (hs : InUse m s) (hd : m.dir s = some d)
    (hstep : m.step fs cfg e = some m') : m'.dir s = some (wrote fs s m e d) := by
  by_cases htouch : m.touching e = some s
  · cases e <;> simp only [touching,reduceCtorEq] at htouch
    case write t d' =>
      split at htouch <;> cases htouch
      rename_i u hpc
      simp only [step,hpc,hd,Option.map_some,Option.some.injEq] at hstep
      subst hstep
      simp only [wrote,hpc,if_true]
      exact (setDir_dir m s s (some d')).trans (if_pos rfl)
    case erode t d' => exact absurd htouch (hs.unremoved t)
    case abandonedErode r d' =>
      split_ifs at htouch with hr
      cases htouch
      have hgone := (hc.abandoned _ hr).2
      rw [hs.registered] at hgone
      cases hgone
    case resume t sig =>
      split at htouch <;> cases htouch <;> rename_i hpc
      · have hgone := (hc.sound t).undone s hpc
        rw [hs.registered] at hgone
        cases hgone
      · exact dir_seed hc.registry hpc hd hstep
  · obtain ⟨m₁,effect,settles⟩ := (step_cases hc.registry hstep).effect hc.registry
    rw [wrote_untouched htouch,settles.frame.dir,effect.dir_kept hc hs htouch,hd]

/-- A session that a step makes has a fresh directory. -/
theorem dir_made (hc : Coherent cfg m) (hstep : m.step fs cfg e = some m') (hnew : m.next ≤ s)
    (hs : m'.registered s = true) : m'.dir s = some fs.fresh := by
  have hlt := (hc.step hstep).registry.registered_lt hs
  obtain ⟨m₁,effect,settles⟩ := (step_cases hc.registry hstep).effect hc.registry
  rw [settles.frame.registered] at hs
  rw [settles.frame.next] at hlt
  rw [settles.frame.dir]
  have hmade : (m.mkdtemp fs).dir m.next = some fs.fresh := (setDir_dir m _ _ _).trans (if_pos rfl)
  cases effect with
  | none | tick | dir | abandonedEnd | abandon => exact absurd hlt (Nat.not_lt.mpr hnew)
  | mkdtemp =>
    obtain rfl : s = m.next := Nat.le_antisymm (Nat.lt_succ_iff.mp hlt) hnew
    exact hmade
  | made _ allocated =>
    obtain ⟨free,nextId,rfl⟩ := allocateProjectId_frame allocated
    obtain rfl : s = m.next := Nat.le_antisymm (Nat.lt_succ_iff.mp hlt) hnew
    exact hmade
  | plain =>
    obtain rfl : s = m.next := Nat.le_antisymm (Nat.lt_succ_iff.mp hlt) hnew
    exact hmade
  | undo =>
    rw [releaseProjectId_eq] at hlt
    exact absurd hlt (Nat.not_lt.mpr hnew)
  | removed =>
    obtain ⟨free,dir,abandoned,he⟩ := afterRemoval_frame m _ _
    rw [he] at hlt
    exact absurd hlt (Nat.not_lt.mpr hnew)

/-- Nothing happens to the directory of a session that is not made yet. -/
theorem untouched_unmade (run : Machine.Run (step fs cfg) (init cfg) h m) (hnew : m.next ≤ s) :
    ∀ p ∈ h, p.1.touching p.2 ≠ some s := by
  induction run with
  | start => exact List.forall_mem_nil _
  | next run taken ih =>
    have hc := coherent_of_run run
    have hle := Nat.le_trans ((step_cases hc.registry taken).forward hc.registry).1 hnew
    exact List.forall_mem_cons.mpr ⟨fun ht => Nat.not_lt.mpr hle (touching_lt hc ht),ih hle⟩

theorem written_untouched (hall : ∀ p ∈ h, p.1.touching p.2 ≠ some s) :
    written fs s h = fs.fresh := by
  induction h with
  | nil => rfl
  | cons p h ih =>
    obtain ⟨hp,hrest⟩ := List.forall_mem_cons.mp hall
    exact (wrote_untouched hp).trans (ih hrest)

/-- The directory of each session in use holds what the seeds of its creator and the bodies under
its lock wrote: nothing is lost, and requests on other sessions, sweeps, deletes, timeouts and
cancellations add nothing. Each of these bodies had the lock of the session while it wrote. -/
theorem contents_kept (run : Machine.Run (step fs cfg) (init cfg) h m) (hs : InUse m s) :
    m.dir s = some (written fs s h) ∧ ∀ p ∈ h, ∀ t u d, p.2 = .write t d →
      p.1.task t = .body u s → p.1.owner s = some t ∧ InUse p.1 s := by
  induction run with
  | start => cases hs.registered
  | @next h m e m' run taken ih =>
    have hc := coherent_of_run run
    by_cases hlt : s < m.next
    · have hback := hs.back hc taken hlt
      obtain ⟨hd,hwriters⟩ := ih hback
      refine ⟨dir_step hc hback hd taken,List.forall_mem_cons.mpr ⟨fun t u d he hpc => ?_,hwriters⟩⟩
      exact ⟨(hc.locks s t).mpr (by rw [hpc]; rfl),hback⟩
    · -- the session is made by this step
      have hnew := Nat.le_of_not_lt hlt
      have hnow : m.touching e ≠ some s := fun ht => hlt (touching_lt hc ht)
      have hall : ∀ p ∈ (m,e)::h, p.1.touching p.2 ≠ some s :=
        List.forall_mem_cons.mpr ⟨hnow,untouched_unmade run hnew⟩
      rw [written_untouched hall]
      refine ⟨dir_made hc taken hnew hs.registered,fun p hp t u d he hpc => ?_⟩
      refine absurd ?_ (hall p hp)
      rw [he,touching,hpc]

/-- A seed, then what two requests wrote one after the other. -/
theorem contents_kept_two : ∃ h m,
    Machine.Run (step Storage.log Config.tight) (init Config.tight) h m ∧
      m.dir 0 = some [7,8,9] ∧ ∀ p ∈ h, ∀ t u d, p.2 = .write t d → p.1.task t = .body u 0 →
        p.1.owner 0 = some t ∧ InUse p.1 0 := by
  have hrun : ∃ h m, Machine.replay (step Storage.log Config.tight) [] (init Config.tight)
      [.create 0 (.handleCreateSession (some [7])) true,.resume 0 .ok,.resume 0 .ok,.resume 0 .ok,
        .request 1 0,.request 2 0,.write 1 [7,8],.resume 1 .ok,.resume 2 .ok,.write 2 [7,8,9]] =
          some (h,m) ∧ m.registered 0 = true ∧ (∀ t < 3, (m.task t).removing = none) ∧
            (∀ t, (m.task (t+3)).removing = none) ∧ written Storage.log 0 h = [7,8,9] :=
    ⟨_,_,rfl,rfl,by decide,fun _ => rfl,rfl⟩
  obtain ⟨h,m,hr,hs,hfew,hmore,hwritten⟩ := hrun
  have hunremoved (t : TaskId) : (m.task t).removing ≠ some 0 := by
    rcases Nat.lt_or_ge t 3 with ht | ht
    · simp [hfew t ht]
    · obtain ⟨n,rfl⟩ := Nat.exists_eq_add_of_le' ht
      simp [hmore n]
  obtain ⟨hd,hwriters⟩ := contents_kept (Machine.replay_run hr) ⟨hs,hunremoved⟩
  exact ⟨h,m,Machine.replay_run hr,hwritten ▸ hd,hwriters⟩

end Contents
end Manager
end CodeExecutorApi
