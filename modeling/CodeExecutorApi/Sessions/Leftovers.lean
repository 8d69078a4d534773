import CodeExecutorApi.Sessions.Passes
import CodeExecutorApi.Sessions.Recycling
import CodeExecutorApi.Sessions.Rollback

/-! What becomes of a session's id, directory and project id: an id that is gone does not come back,
and a directory or a project id is lost only by a removal that fails or by a range that is used
up. -/
namespace CodeExecutorApi

namespace Manager
variable {D A : Type}

/-- The session whose directory a step leaves behind: a removal failed, or `create` found the
project ids used up after it had made the directory. -/
def leavesBehind (cfg : Config) (m : Manager D A) : Event D A → Option Ref
  | .create _ _ mkdtemp =>
    if m.sessions.length < cfg.maxSessions ∧ mkdtemp = true ∧ cfg.quotaMountpoint = true ∧
        m.allocateProjectId.isNone = true then some m.next
    else none
  | .resume t sig => if sig = .ok ∨ sig = .cancelled then none else (m.task t).removing
  | .abandonedEnd s removed => if removed then none else some s
  | _ => none

/-- The session whose project id a step holds back: its removal failed, or nobody waits for it any
more. -/
def holdsBack (m : Manager D A) : Event D A → Option Ref
  | .resume t sig =>
    match m.task t with
    | .remove _ s => if sig = .ok then none else some s
    | .deletion cancelled _ s _ =>
      if sig = .ok ∨ sig = .cancelled ∧ cancelled = false then none else some s
    | _ => none
  | _ => none

section Leftovers
variable {fs : Storage D A} {cfg : Config} {m m₁ m' : Manager D A} {e : Event D A} {s : Ref}
  {t : TaskId} {h h' : List (Manager D A × Event D A)}

/-- The directory is that of a session which is registered or being removed, or it was left. -/
def DirectoryAccounted (cfg : Config) (h : List (Manager D A × Event D A)) (m : Manager D A)
    (s : Ref) : Prop :=
  m.registered s = true ∨ (∃ t, (m.task t).removing = some s) ∨ s ∈ m.abandoned ∨
    ∃ p ∈ h, leavesBehind cfg p.1 p.2 = some s

theorem Pc.removing_of_deleting {pc : Pc A} (h : pc.deleting = some s) : pc.removing = some s := by
  cases pc <;> first | exact h | cases h

/-- When a removal ends, the directory is gone, or its thread goes on, or it is left behind. -/
theorem removal_ends (hrem : (m.task t).removing = some s) {sig : Signal}
    (hdir : sig = .ok → m'.dir s = none) (habandon : sig = .cancelled → s ∈ m'.abandoned)
    (hs : (m'.dir s).isSome = true) :
    DirectoryAccounted cfg ((m,.resume t sig)::h) m' s := by
  by_cases hok : sig = .ok
  · rw [hdir hok] at hs
    cases hs
  by_cases hc : sig = .cancelled
  · exact .inr (.inr (.inl (habandon hc)))
  · refine .inr (.inr (.inr ⟨_,List.mem_cons_self,?_⟩))
    rw [leavesBehind,if_neg (not_or.mpr ⟨hok,hc⟩),hrem]

theorem afterRemoval_ok (m : Manager D A) (s : Ref) : (m.afterRemoval s .ok).dir s = none := by
  rw [afterRemoval,releaseProjectId_eq]
  exact (setDir_dir m s s none).trans (if_pos rfl)

theorem Resumes.removal_ends {sig : Signal} (hrem : (m.task t).removing = some s)
    (resumes : Resumes fs cfg m t sig m') (hs : (m'.dir s).isSome = true) :
    DirectoryAccounted cfg ((m,.resume t sig)::h) m' s := by
  have hends {m₁ : Manager D A} (hm : Settles (some t) m₁ m') (hdir : sig = .ok → m₁.dir s = none)
      (habandon : sig = .cancelled → s ∈ m₁.abandoned) :
      DirectoryAccounted cfg ((m,.resume t sig)::h) m' s :=
    Manager.removal_ends hrem (fun hsig => hm.frame.dir ▸ hdir hsig)
      (fun hsig => hm.frame.abandoned ▸ habandon hsig) hs
  cases resumes with
  | undone pc =>
    rw [pc] at hrem
    obtain rfl := Option.some.inj hrem
    exact hends .finish (fun _ => (setDir_dir m _ _ none).trans (if_pos rfl)) (by simp)
  | undoAbandoned pc =>
    rw [pc] at hrem
    obtain rfl := Option.some.inj hrem
    exact hends .finish (by simp) fun _ => List.mem_cons_self
  | undoFailed pc hsig => exact hends .finish (fun h => absurd h hsig.1) fun h => absurd h hsig.2
  | @removed u r sig m' pc leaves =>
    rw [pc] at hrem
    obtain rfl := Option.some.inj hrem
    refine hends leaves.settles.setLock ?_ ?_
    · rintro rfl
      exact afterRemoval_ok m r
    · rintro rfl
      exact List.mem_cons_self
  | @deleted cancelled now r rest sig pc =>
    rw [pc] at hrem
    obtain rfl := Option.some.inj hrem
    refine hends (.setPc rfl) ?_ ?_
    · rintro rfl
      exact afterRemoval_ok m r
    · rintro rfl
      exact List.mem_cons_self
  | shielded pc =>
    rw [pc] at hrem
    exact .inr (.inl ⟨t,by rw [setPc_task,if_pos rfl]; exact hrem⟩)
  | quotaSet pc | quotaFailed pc | seedCancelled pc | seeded pc | seedPart pc | seedFailed pc
  | seedCleans pc | entered pc | retired pc | waitedTooLong pc | waitCancelled pc | left pc
  | swept pc | skipped pc | passed pc | sweepCancelled pc | sweepEnded pc | sweepWent pc =>
    rw [pc] at hrem
    cases hrem

/-- Only the end of an abandoned removal takes it from the list. -/
theorem Effect.abandoned_kept (effect : Effect fs cfg m e m') (hs : s ∈ m.abandoned)
    (he : ∀ removed, e ≠ .abandonedEnd s removed) : s ∈ m'.abandoned := by
  cases effect with
  | none | tick | dir | mkdtemp | plain => exact hs
  | @abandonedEnd r removed =>
    refine (List.mem_erase_of_ne ?_).mpr hs
    rintro rfl
    exact he removed rfl
  | abandon => exact List.mem_cons_of_mem _ hs
  | made _ allocated =>
    obtain ⟨free,nextId,rfl⟩ := allocateProjectId_frame allocated
    exact hs
  | undo => rw [releaseProjectId_eq]; exact hs
  | @removed t r sig =>
    cases sig with
    | ok => rw [afterRemoval,releaseProjectId_eq]; exact hs
    | cancelled => exact List.mem_cons_of_mem _ hs
    | osError | timeout | exception => exact hs

/-- A directory that `create` makes is that of the session it registers, or it is left. -/
theorem create_directory (hr : Registry cfg m) {k : Creator A} {ok : Bool}
    (hold : m.dir s = none) (hs : ((m.create fs cfg t k ok).dir s).isSome = true) :
    (m.create fs cfg t k ok).registered s = true ∨
      leavesBehind cfg m (.create t k ok) = some s := by
  have hnext {d : Ref → Option D} (hd : d = (m.mkdtemp fs).dir) (hdir : (d s).isSome = true) :
      s = m.next := by
    by_contra hne
    have hsame : (m.mkdtemp fs).dir s = m.dir s := (setDir_dir m _ _ _).trans (if_neg hne)
    rw [hd,hsame,hold] at hdir
    cases hdir
  have hrefused {how : Ending} (hdir : ((m.finish t none how).dir s).isSome = true) : False := by
    change (m.dir s).isSome = true at hdir
    rw [hold] at hdir
    cases hdir
  rw [create] at hs ⊢
  split_ifs at hs ⊢ with hfull hok hquota
  · exact (hrefused hs).elim
  · cases hids : (m.mkdtemp fs).allocateProjectId with
    | none =>
      rw [hids] at hs
      have hleft : ¬(m.mkdtemp fs).idsLeft := allocateProjectId_none.mp hids
      have hnone : m.allocateProjectId = none := allocateProjectId_none.mpr hleft
      refine .inr ?_
      rw [leavesBehind,if_pos ⟨Nat.lt_of_not_le hfull,hok,hquota,by rw [hnone]; rfl⟩,hnext rfl hs]
    | some q =>
      obtain ⟨p,m₁⟩ := q
      rw [hids] at hs
      obtain ⟨free,nextId,rfl⟩ := allocateProjectId_frame hids
      exact .inl ((made_registered hr hids _ s).mpr (.inr (hnext rfl hs)))
  · have hframe := (created_cases t (hr.made fs none) m.next k).settles (hr.made fs none) |>.frame
    rw [hframe.dir] at hs
    rw [hframe.registered]
    exact .inl ((plain_registered fs hr s).mpr (.inr (hnext rfl hs)))
  · exact (hrefused hs).elim

theorem DirectoryAccounted.step (hr : Registry cfg m)
    (hold : (m.dir s).isSome = true → DirectoryAccounted cfg h m s)
    (hstep : m.step fs cfg e = some m') (hs : (m'.dir s).isSome = true) :
    DirectoryAccounted cfg ((m,e)::h) m' s := by
  have steps := step_cases hr hstep
  obtain ⟨m₁,effect,settles⟩ := steps.effect hr
  cases hdir : m.dir s with
  | none =>
    by_cases hmade : ∃ t k ok, e = .create t k ok
    · obtain ⟨t,k,ok,rfl⟩ := hmade
      simp only [step] at hstep
      split_ifs at hstep
      cases hstep
      rcases create_directory hr hdir hs with hreg | hleft
      · exact .inl hreg
      · exact .inr (.inr (.inr ⟨_,List.mem_cons_self,hleft⟩))
    · rw [steps.dir_gone hr (fun t k ok he => absurd ⟨t,k,ok,he⟩ hmade) hdir] at hs
      cases hs
  | some d =>
    rcases hold (by rw [hdir]; rfl) with hreg | ⟨t,hrem⟩ | habandoned | ⟨p,hp,hleft⟩
    · by_cases hreg' : m'.registered s = true
      · exact .inl hreg'
      rw [Bool.not_eq_true,settles.frame.registered] at hreg'
      rcases effect.unregisters hr hreg hreg' with ⟨t,k,sig,rfl,hsig,pc⟩ | ⟨t,sig,rfl,hdel⟩
      · refine .inr (.inl ⟨t,?_⟩)
        simp only [step,resume,pc,if_neg hsig,Option.some.injEq] at hstep
        rw [← hstep,undo,setPc_task,if_pos rfl]
        rfl
      · cases steps with
        | resume resumes => exact resumes.removal_ends (Pc.removing_of_deleting hdel) hs
    · by_cases he : e.task = some t
      · have hbusy : m.task t ≠ .idle := by
          intro hpc
          rw [hpc] at hrem
          cases hrem
        obtain ⟨sig,rfl,resumes⟩ := steps.resumes he hbusy
        exact resumes.removal_ends hrem hs
      · exact .inr (.inl ⟨t,by rw [steps.others hr he]; exact hrem⟩)
    · by_cases he : ∃ removed, e = .abandonedEnd s removed
      · obtain ⟨removed,rfl⟩ := he
        cases removed with
        | true =>
          simp only [step,if_pos habandoned,Option.some.injEq,if_true] at hstep
          subst hstep
          rw [setDir_dir,if_pos rfl] at hs
          cases hs
        | false => exact .inr (.inr (.inr ⟨_,List.mem_cons_self,rfl⟩))
      · refine .inr (.inr (.inl ?_))
        rw [settles.frame.abandoned]
        exact effect.abandoned_kept habandoned fun removed he' => he ⟨removed,he'⟩
    · exact .inr (.inr (.inr ⟨p,List.mem_cons_of_mem _ hp,hleft⟩))

/-- No directory is forgotten: each one on disk is that of a session which is registered or whose
removal goes on, unless a removal of it failed or the project ids were used up when it was
made. -/
theorem directories_accounted (run : Machine.Run (step fs cfg) (init cfg) h m)
    (hs : (m.dir s).isSome = true) : DirectoryAccounted cfg h m s := by
  induction run with
  | start => cases hs
  | next run taken ih => exact .step (coherent_of_run run).registry ih taken hs

/-- A delete whose removal fails leaves the directory behind, and takes the project id along. -/
theorem directories_accounted_failing : ∃ h m,
    Machine.Run (step Storage.log Config.tight) (init Config.tight) h m ∧
      m.registered 0 = false ∧ (∀ t, (m.task t).removing = none) ∧
        DirectoryAccounted Config.tight h m 0 := by
  have hrun : ∃ h m, Machine.replay (step Storage.log Config.tight) [] (init Config.tight)
      [.create 0 .create true,.resume 0 .ok,.delete 1 0,.resume 1 .osError] = some (h,m) ∧
        m.registered 0 = false ∧ (∀ t < 2, (m.task t).removing = none) ∧
          (∀ t, (m.task (t+2)).removing = none) ∧ (m.dir 0).isSome = true :=
    ⟨_,_,rfl,rfl,by decide,fun _ => rfl,rfl⟩
  obtain ⟨h,m,hr,hreg,hfew,hmore,hd⟩ := hrun
  refine ⟨h,m,Machine.replay_run hr,hreg,fun t => ?_,
    directories_accounted (Machine.replay_run hr) hd⟩
  rcases Nat.lt_or_ge t 2 with ht | ht
  · exact hfew t ht
  · obtain ⟨n,rfl⟩ := Nat.exists_eq_add_of_le' ht
    exact hmore n

/-- The project id is free, or it belongs to a session that is registered, or to one that took it
along when it was unregistered. -/
def ProjectIdAccounted (h : List (Manager D A × Event D A)) (m : Manager D A) (p : ℕ) : Prop :=
  p ∈ m.freeProjectIds ∨ ∃ s < m.next, (m.heap s).projectId = some p ∧
    (m.registered s = true ∨ ∃ q ∈ h, q.1.holdsBack q.2 = some s)

/-- A removal that succeeds gives the project id back. -/
theorem afterRemoval_released {p : ℕ} (hid : (m.heap s).projectId = some p) :
    p ∈ (m.afterRemoval s .ok).freeProjectIds := by
  rw [afterRemoval,releaseProjectId_eq,hid]
  exact List.mem_append_right _ List.mem_cons_self

/-- A delete that unregisters its session gives the project id back, or holds it back. -/
theorem Resumes.releases {p : ℕ} {sig : Signal} (hdel : (m.task t).deleting = some s)
    (hreg : m.registered s = true) (hreg' : m'.registered s = false)
    (hid : (m.heap s).projectId = some p) (resumes : Resumes fs cfg m t sig m') :
    p ∈ m'.freeProjectIds ∨ m.holdsBack (.resume t sig) = some s := by
  cases resumes with
  | @removed u r sig m' pc leaves =>
    rw [pc] at hdel
    obtain rfl := Option.some.inj hdel
    by_cases hsig : sig = .ok
    · subst hsig
      rw [leaves.settles.frame.freeProjectIds]
      exact .inl (afterRemoval_released hid)
    · exact .inr (by simp only [holdsBack,pc,if_neg hsig])
  | @deleted cancelled now r rest sig pc hshield =>
    rw [pc] at hdel
    obtain rfl := Option.some.inj hdel
    by_cases hsig : sig = .ok
    · subst hsig
      exact .inl (afterRemoval_released hid)
    · have hnot : ¬(sig = .ok ∨ sig = .cancelled ∧ cancelled = false) := by
        rintro (hok | ⟨hc,hfalse⟩)
        · exact hsig hok
        · rw [hshield hc] at hfalse
          cases hfalse
      exact .inr (by simp only [holdsBack,pc,if_neg hnot])
  | shielded =>
    rw [setPc_registered,hreg] at hreg'
    cases hreg'
  | quotaSet pc | quotaFailed pc | undone pc | undoAbandoned pc | undoFailed pc | seedCancelled pc
  | seeded pc | seedPart pc | seedFailed pc | seedCleans pc | entered pc | retired pc
  | waitedTooLong pc | waitCancelled pc | left pc | swept pc | skipped pc | passed pc
  | sweepCancelled pc | sweepEnded pc | sweepWent pc =>
    rw [pc] at hdel
    cases hdel

/-- Only a new session takes an id, from the free ones or from the range. -/
theorem Effect.takes {p : ℕ} (hr : Registry cfg m) (effect : Effect fs cfg m e m') :
    (p ∈ m.freeProjectIds → p ∈ m'.freeProjectIds ∨ m'.holdsProjectId m.next p) ∧
      (m.nextProjectId ≤ p → p < m'.nextProjectId → m'.holdsProjectId m.next p) := by
  have hrange {q : Prop} (hle : m.nextProjectId ≤ p) (hlt : p < m.nextProjectId) : q :=
    absurd hlt (Nat.not_lt.mpr hle)
  cases effect with
  | none | tick | dir | abandonedEnd | abandon | mkdtemp | plain => exact ⟨.inl,hrange⟩
  | @made t k ok q m₁ _ allocated =>
    have hheld : (m₁.register m.next (m.newSession cfg (some q))).holdsProjectId m.next q := by
      refine ⟨(made_registered hr allocated _ _).mpr (.inr rfl),?_⟩
      rw [register]
      change ((m₁.setSession _ _).heap m.next).projectId = some q
      rw [setSession_heap,if_pos rfl]
      rfl
    rcases allocateProjectId_cases allocated with ⟨happ,rfl⟩ | ⟨rfl,-,rfl⟩
    · refine ⟨fun hp => ?_,hrange⟩
      rw [← show m.freeProjectIds.dropLast ++ [q] = m.freeProjectIds from happ,List.mem_append,
        List.mem_singleton] at hp
      rcases hp with hp | rfl
      · exact .inl hp
      · exact .inr hheld
    · refine ⟨.inl,fun hle hlt => ?_⟩
      obtain rfl : p = m.nextProjectId := Nat.le_antisymm (Nat.lt_succ_iff.mp hlt) hle
      exact hheld
  | undo =>
    rw [releaseProjectId_eq]
    exact ⟨fun hp => .inl (List.mem_append_left _ hp),hrange⟩
  | @removed t r sig =>
    cases sig with
    | ok =>
      rw [afterRemoval,releaseProjectId_eq]
      exact ⟨fun hp => .inl (List.mem_append_left _ hp),hrange⟩
    | osError | timeout | exception | cancelled => exact ⟨.inl,hrange⟩

theorem ProjectIdAccounted.of_holds {p : ℕ} (hr : Registry cfg m) (hs : m.holdsProjectId s p) :
    ProjectIdAccounted h m p :=
  .inr ⟨s,hr.registered_lt hs.1,hs.2,.inl hs.1⟩

theorem ProjectIdAccounted.step {p : ℕ} (hr : Registry cfg m)
    (hold : p < m.nextProjectId → ProjectIdAccounted h m p) (hstep : m.step fs cfg e = some m')
    (hp : p < m'.nextProjectId) : ProjectIdAccounted ((m,e)::h) m' p := by
  have steps := step_cases hr hstep
  obtain ⟨m₁,effect,settles⟩ := steps.effect hr
  have hframe := settles.frame
  have hr' := steps.registry hr
  have hnext := (steps.forward hr).1
  have hid' (s : Ref) (hs : s < m.next) (hid : (m.heap s).projectId = some p) :
      (m'.heap s).projectId = some p := by
    rw [hframe.projectId,effect.heap hs]
    exact hid
  obtain ⟨hfree,hrange⟩ := effect.takes hr (p := p)
  have hheld (hs : m₁.holdsProjectId m.next p) : ProjectIdAccounted ((m,e)::h) m' p := by
    refine .of_holds hr' (s := m.next) ?_
    rw [holdsProjectId,hframe.registered,hframe.projectId]
    exact hs
  rw [hframe.nextProjectId] at hp
  rcases Nat.lt_or_ge p m.nextProjectId with hlt | hge
  · rcases hold hlt with hmem | ⟨s,hs,hid,hreg | ⟨q,hq,hback⟩⟩
    · rcases hfree hmem with hmem' | hnew
      · exact .inl (hframe.freeProjectIds ▸ hmem')
      · exact hheld hnew
    · by_cases hreg' : m'.registered s = true
      · exact .of_holds hr' ⟨hreg',hid' s hs hid⟩
      rw [Bool.not_eq_true] at hreg'
      have hreg₁ : m₁.registered s = false := by rwa [hframe.registered] at hreg'
      rcases effect.unregisters hr hreg hreg₁ with ⟨t,k,sig,rfl,hsig,pc⟩ | ⟨t,sig,rfl,hdel⟩
      · refine .inl ?_
        simp only [Manager.step,resume,pc,if_neg hsig,Option.some.injEq] at hstep
        rw [← hstep,undo,releaseProjectId_eq,hid]
        exact List.mem_append_right _ List.mem_cons_self
      · cases steps with
        | resume resumes =>
          rcases resumes.releases hdel hreg hreg' hid with hmem | hback
          · exact .inl hmem
          · exact .inr ⟨s,Nat.lt_of_lt_of_le hs hnext,hid' s hs hid,
              .inr ⟨_,List.mem_cons_self,hback⟩⟩
    · exact .inr ⟨s,Nat.lt_of_lt_of_le hs hnext,hid' s hs hid,
        .inr ⟨q,List.mem_cons_of_mem _ hq,hback⟩⟩
  · exact hheld (hrange hge hp)

/-- No project id is lost: each one that was given out is free again, or belongs to a session that
is registered, or to one whose removal failed or is not waited for any more. -/
theorem projectIds_accounted {p : ℕ} (run : Machine.Run (step fs cfg) (init cfg) h m)
    (hbase : projectIdBase ≤ p) (hp : p < m.nextProjectId) : ProjectIdAccounted h m p := by
  induction run with
  | start => exact absurd hp (Nat.not_lt.mpr hbase)
  | next run taken ih => exact .step (coherent_of_run run).registry ih taken hp

theorem projectIds_accounted_failing : ∃ h m,
    Machine.Run (step Storage.log Config.tight) (init Config.tight) h m ∧
      m.freeProjectIds = [] ∧ m.sessions = [] ∧ ProjectIdAccounted h m 1000 := by
  have hrun : ∃ h m, Machine.replay (step Storage.log Config.tight) [] (init Config.tight)
      [.create 0 .create true,.resume 0 .ok,.delete 1 0,.resume 1 .osError] = some (h,m) ∧
        m.freeProjectIds = [] ∧ m.sessions = [] ∧ m.nextProjectId = 1001 :=
    ⟨_,_,rfl,rfl,rfl,rfl⟩
  obtain ⟨h,m,hr,hfree,hs,hnext⟩ := hrun
  exact ⟨h,m,Machine.replay_run hr,hfree,hs,
    projectIds_accounted (Machine.replay_run hr) (by decide) (by rw [hnext]; decide)⟩

/-- No run brings a session back. -/
theorem forward_of_run (hr : Registry cfg m) (run : Machine.Run (step fs cfg) m h m') :
    Forward m m' ∧ Registry cfg m' := by
  induction run with
  | start => exact ⟨⟨Nat.le_refl _,fun _ _ hs => hs⟩,hr⟩
  | next run taken ih =>
    have steps := step_cases ih.2 taken
    have hf := steps.forward ih.2
    refine ⟨⟨Nat.le_trans ih.1.1 hf.1,fun r hlt hreg => ih.1.2 r hlt ?_⟩,steps.registry ih.2⟩
    exact hf.2 r (Nat.lt_of_lt_of_le hlt ih.1.1) hreg

/-- A session that is gone stays gone: its id never names a session again, and who asks for it is
told at once that there is none. -/
theorem retired_for_good (run : Machine.Run (step fs cfg) (init cfg) h m) (hmade : s < m.next)
    (hgone : m.registered s = false) (run' : Machine.Run (step fs cfg) m h' m') :
    m'.get (cfg.tokenUrlsafe s) = none ∧ ∀ t, m'.task t = .idle → ∀ e,
      e = .request t (cfg.tokenUrlsafe s) ∨ e = .delete t (cfg.tokenUrlsafe s) →
        ∃ m'', m'.step fs cfg e = some m'' ∧ m''.task t = .done none .sessionNotFound := by
  obtain ⟨hf,hr⟩ := forward_of_run (coherent_of_run run).registry run'
  have hnone : m'.get (cfg.tokenUrlsafe s) = none := by
    cases hget : m'.get (cfg.tokenUrlsafe s) with
    | none => rfl
    | some r =>
      obtain ⟨hreg,hid⟩ := hr.registered_of_get hget
      obtain rfl := cfg.token_injective hid
      rw [hf.2 s hmade hreg] at hgone
      cases hgone
  refine ⟨hnone,fun t hidle e he => ⟨m'.finish t none .sessionNotFound,?_,?_⟩⟩
  · have hready : m'.idle t = true := by rw [idle,hidle]
    rcases he with rfl | rfl
    · simp [step,hready,locked,lockedOr,hnone,leave]
    · simp [step,hready,locked,lockedOr,hnone,leave]
  · exact (setPc_task _ _ _ _).trans (if_pos rfl)

/-- The project id of the deleted session is given to the next one, its own id is not. -/
theorem retired_for_good_recycled : ∃ h m h' m',
    Machine.Run (step Storage.log Config.tight) (init Config.tight) h m ∧
      Machine.Run (step Storage.log Config.tight) m h' m' ∧
        (m'.heap 1).projectId = some 1000 ∧ m'.get (Config.tight.tokenUrlsafe 0) = none := by
  have hrun : ∃ h m h' m', Machine.replay (step Storage.log Config.tight) [] (init Config.tight)
      [.create 0 .create true,.resume 0 .ok,.delete 1 0,.resume 1 .ok] = some (h,m) ∧
        Machine.replay (step Storage.log Config.tight) [] m [.create 2 .create true] =
          some (h',m') ∧ m.registered 0 = false ∧ m.next = 1 ∧
            (m'.heap 1).projectId = some 1000 :=
    ⟨_,_,_,_,rfl,rfl,rfl,rfl,rfl⟩
  obtain ⟨h,m,h',m',hr,hr',hgone,hnext,hid⟩ := hrun
  have hretired := retired_for_good (s := 0) (Machine.replay_run hr) (by rw [hnext]; decide) hgone
    (Machine.replay_run hr')
  exact ⟨h,m,h',m',Machine.replay_run hr,Machine.replay_run hr',hid,hretired.1⟩

end Leftovers

end Manager
end CodeExecutorApi
