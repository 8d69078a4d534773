import CodeExecutorApi.Machine.IdPool
import CodeExecutorApi.Sessions.Coherence
import CodeExecutorApi.Sessions.Effects

/-! Project ids over whole runs. An id stays with one session as long as it is only released while
its session is registered; a sweep that deletes a session still in `create` breaks this. -/
namespace CodeExecutorApi
namespace Manager
variable {D A : Type}

def holdsProjectId (m : Manager D A) (s : Ref) (p : ℕ) : Prop :=
  m.registered s = true ∧ (m.heap s).projectId = some p

/-- No project id is shared by two sessions, or by a session and the free list. -/
structure ProjectIdsUnshared (m : Manager D A) : Prop where
  held_once : ∀ s s' p, m.holdsProjectId s p → m.holdsProjectId s' p → s = s'
  free_nodup : m.freeProjectIds.Nodup
  free_unheld : ∀ p ∈ m.freeProjectIds, ∀ s, ¬ m.holdsProjectId s p

/-- A failed quota setup and a successful removal release the id of a registered session. -/
def releasesRegistered (m : Manager D A) : Event D A → Bool
  | .resume t sig => match m.task t with
    | .applyQuota _ s => sig == .ok || m.registered s
    | .remove _ s | .deletion _ _ s _ => sig != .ok || m.registered s
    | _ => true
  | _ => true

/-- The ids of `m` as a pool, the registered sessions holding theirs. -/
def ProjectIdPool (m : Manager D A) : Prop :=
  Machine.IdPool m.nextProjectId m.freeProjectIds m.holdsProjectId

theorem ProjectIdPool.unshared {m : Manager D A} (h : ProjectIdPool m) : ProjectIdsUnshared m :=
  ⟨h.held_unique,h.free_nodup,h.free_unheld⟩

section Steps
variable {fs : Storage D A} {cfg : Config} {m m' : Manager D A} {s : Ref}

theorem ProjectIdPool.congr (h : ProjectIdPool m) (hn : m'.nextProjectId = m.nextProjectId)
    (hf : m'.freeProjectIds = m.freeProjectIds)
    (hh : ∀ s p, m'.holdsProjectId s p → m.holdsProjectId s p) : ProjectIdPool m' := by
  rw [ProjectIdPool,hn,hf]
  exact Machine.IdPool.withhold h hh

theorem ProjectIdPool.frame {actor : Option TaskId} (h : ProjectIdPool m)
    (hf : Frame actor m m') : ProjectIdPool m' := by
  refine h.congr hf.nextProjectId hf.freeProjectIds fun s p hp => ?_
  rwa [holdsProjectId,hf.registered,hf.projectId] at hp

/-- A registered session gives its id back in the step that unregisters it. -/
theorem ProjectIdPool.release (h : ProjectIdPool m) (hr : Registry cfg m)
    (hs : m.registered s = true) : ProjectIdPool ((m.pop s).releaseProjectId (m.heap s).projectId) := by
  have hpop (r : Ref) (p : ℕ) (hp : (m.pop s).holdsProjectId r p) : m.holdsProjectId r p ∧ r ≠ s :=
    ⟨⟨((hr.pop_registered s r).mp hp.1).1,hp.2⟩,((hr.pop_registered s r).mp hp.1).2⟩
  cases hid : (m.heap s).projectId with
  | none => exact h.congr rfl rfl fun r p hp => (hpop r p hp).1
  | some p => exact Machine.IdPool.release h ⟨hs,hid⟩ hpop

/-- A session that is only unregistered takes its id along. -/
theorem ProjectIdPool.pop (h : ProjectIdPool m) (hr : Registry cfg m) : ProjectIdPool (m.pop s) :=
  h.congr rfl rfl fun r _ hp => ⟨((hr.pop_registered s r).mp hp.1).1,hp.2⟩

theorem ProjectIdPool.afterRemoval (h : ProjectIdPool m) (hr : Registry cfg m) {sig : Signal}
    (hs : sig = .ok → m.registered s = true) : ProjectIdPool (m.afterRemoval s sig) := by
  cases sig with
  | ok =>
    have hrel := h.release hr (hs rfl)
    rw [Manager.afterRemoval]
    cases hid : (m.heap s).projectId with
    | none => exact h.pop hr
    | some p =>
      rw [hid] at hrel
      exact hrel
  | osError | timeout | exception | cancelled => exact h.pop hr

/-- The session object made next holds the id allocated for it. -/
theorem holdsProjectId_register {m₁ : Manager D A} (hr : Registry cfg m)
    (hs : m₁.sessions = m.sessions) (hh : m₁.heap = m.heap) (hn : m₁.next = m.next+1) {q : Option ℕ}
    {r : Ref} {p : ℕ} (hp : (m₁.register m.next (m.newSession cfg q)).holdsProjectId r p) :
    m.holdsProjectId r p ∨ r = m.next ∧ q = some p := by
  obtain ⟨hreg,hid⟩ := hp
  rw [hr.register_registered hs hh hn rfl] at hreg
  rw [register,setSession_heap,hh] at hid
  split_ifs at hid with he
  · exact .inr ⟨he,hid⟩
  · exact .inl ⟨hreg.resolve_right he,hid⟩

theorem ProjectIdPool.made (h : ProjectIdPool m) (hr : Registry cfg m) {p : ℕ} {m₁ : Manager D A}
    (allocated : (m.mkdtemp fs).allocateProjectId = some (p,m₁)) :
    ProjectIdPool (m₁.register m.next (m.newSession cfg (some p))) := by
  have hheld (hs : m₁.sessions = m.sessions) (hh : m₁.heap = m.heap) (hn : m₁.next = m.next+1)
      (r : Ref) (q : ℕ) (hq : (m₁.register m.next (m.newSession cfg (some p))).holdsProjectId r q) :
      m.holdsProjectId r q ∨ r = m.next ∧ q = p := by
    simpa [eq_comm] using holdsProjectId_register hr hs hh hn hq
  rcases allocateProjectId_cases allocated with ⟨happ,rfl⟩ | ⟨rfl,_,rfl⟩
  · have hpool : Machine.IdPool m.nextProjectId (m.freeProjectIds.dropLast ++ [p])
        m.holdsProjectId := by
      rw [show m.freeProjectIds.dropLast ++ [p] = m.freeProjectIds from happ]
      exact h
    exact hpool.reuse (hheld rfl rfl rfl)
  · exact Machine.IdPool.fresh h (hheld rfl rfl rfl)

theorem ProjectIdPool.effect (h : ProjectIdPool m) (hr : Registry cfg m) {e : Event D A}
    (hg : m.releasesRegistered e = true) (effect : Effect fs cfg m e m') : ProjectIdPool m' := by
  cases effect with
  | none | tick | dir | abandonedEnd | abandon | mkdtemp => exact h.congr rfl rfl fun _ _ hp => hp
  | made _ allocated => exact h.made hr allocated
  | plain =>
    refine h.congr rfl rfl fun r p hp => ?_
    have hs : (m.mkdtemp fs).sessions = m.sessions := rfl
    simpa using holdsProjectId_register hr hs rfl rfl hp
  | undo pc hsig =>
    simp only [releasesRegistered,pc,Bool.or_eq_true,beq_iff_eq] at hg
    exact h.release hr (hg.resolve_left hsig)
  | @removed t s sig pc =>
    refine h.afterRemoval hr fun hsig => ?_
    cases hpc : m.task t <;> rw [hpc] at pc <;> cases pc
    all_goals simpa [releasesRegistered,hpc,hsig] using hg

theorem ProjectIdPool.step (h : ProjectIdPool m) (hr : Registry cfg m) {e : Event D A}
    (hg : m.releasesRegistered e = true) (hstep : m.step fs cfg e = some m') : ProjectIdPool m' := by
  obtain ⟨m₁,effect,settles⟩ := (step_cases hr hstep).effect hr
  exact (h.effect hr hg effect).frame settles.frame

theorem ProjectIdPool.init (cfg : Config) : ProjectIdPool (init cfg : Manager D A) :=
  Machine.IdPool.empty _ fun s p hp => by simp [holdsProjectId,Manager.init] at hp

end Steps

/-- Along a run in which ids are only released for registered sessions, no id is ever shared. -/
theorem projectIds_unshared {fs : Storage D A} {cfg : Config} {m : Manager D A}
    {h : List (Manager D A × Event D A)} (run : Machine.Run (step fs cfg) (init cfg) h m)
    (hg : Machine.Guarded (fun m e => m.releasesRegistered e) h) : ProjectIdsUnshared m := by
  have hpool : Coherent cfg m ∧ ProjectIdPool m := by
    refine run.invariant (I := fun m => Coherent cfg m ∧ ProjectIdPool m)
      ⟨Coherent.init cfg,ProjectIdPool.init cfg⟩ ?_ hg
    intro m e m' ⟨hc,hp⟩ hge hstep
    exact ⟨hc.step hstep,hp.step hc.registry hge hstep⟩
  exact hpool.2.unshared

/-- A quota setup that fails in time, and a later session that reuses its id. -/
theorem projectIds_unshared_reuse : ∃ h m,
    Machine.Run (step Storage.log Config.tight) (init Config.tight) h m ∧
      m.nextProjectId = 1001 ∧ m.registered 1 = true ∧ ProjectIdsUnshared m := by
  have hrun : ∃ h m, Machine.replay (step Storage.log Config.tight) [] (init Config.tight)
      [.create 0 .create true,.resume 0 .exception,.resume 0 .ok,.create 1 .create true] =
        some (h,m) ∧ Machine.Guarded (fun m e => m.releasesRegistered e) h ∧
          m.nextProjectId = 1001 ∧ m.registered 1 = true :=
    ⟨_,_,rfl,by decide,rfl,rfl⟩
  obtain ⟨h,m,hr,hg,hn,hm⟩ := hrun
  exact ⟨h,m,Machine.replay_run hr,hn,hm,projectIds_unshared (Machine.replay_run hr) hg⟩

/-- The sweep deletes a session whose quota setup is still running and releases its id. The setup
then fails, `create` releases the id again, and two later sessions get it. -/
theorem project_id_shared_after_sweep : ¬ ∀ h m,
    Machine.Run (step Storage.log Config.tight) (init Config.tight) h m → ProjectIdsUnshared m := by
  have hrun : ∃ h m, Machine.replay (step Storage.log Config.tight) [] (init Config.tight)
      [.create 0 .create true,.tick 2,.sweep 1,.resume 1 .ok,.resume 0 .timeout,
        .create 2 .create true,.create 3 .create true] = some (h,m) ∧
          (m.registered 1 = true ∧ (m.heap 1).projectId = some 1000) ∧
            m.registered 2 = true ∧ (m.heap 2).projectId = some 1000 :=
    ⟨_,_,rfl,⟨rfl,rfl⟩,rfl,rfl⟩
  obtain ⟨h,m,hr,hfirst,hsecond⟩ := hrun
  intro hall
  exact absurd ((hall h m (Machine.replay_run hr)).held_once 1 2 1000 hfirst hsecond) (by decide)

end Manager
end CodeExecutorApi
