import CodeExecutorApi.Sessions.Steps

/-! Every step keeps the registry well formed and every lock with the task suspended under it. -/
namespace CodeExecutorApi
namespace Manager
variable {D A : Type}

variable {cfg : Config} {m m' : Manager D A} {t : TaskId} {u : Use} {s : Ref} {l : Option Ref}

theorem Running.enter (h : Running cfg m t (some s)) (hs : s < m.next)
    (hc : ∀ r, u.created = some r → r = s) :
    Coherent cfg ((m.touch s).setPc t (u.started s)) := by
  have ht : Running cfg (m.touch s) t (some s) :=
    h.frame (h.registry.congr rfl rfl fun _ => by grind) ⟨Nat.le_refl _,fun r _ hr => by simpa using hr⟩
      rfl rfl fun _ => by grind
  refine ht.suspend ⟨?_,by simp,?_,?_,?_⟩ (by simp)
  · intro r hr
    rw [Use.started_session,Option.some.injEq] at hr
    exact hr ▸ hs
  · intro u' r r' hu hr hr'
    rw [Use.started_session,Option.some.injEq] at hr
    rw [Use.started_use,Option.some.injEq] at hu
    subst hr hu
    exact hc r' hr'
  · intro u' r hr
    cases u <;> simp [Use.started] at hr <;> obtain ⟨rfl,rfl⟩ := hr <;> rfl
  · intro r hr
    cases u <;> simp [Use.started] at hr

theorem Running.finish (h : Running cfg m t none) {c : Option Ref} (hc : ∀ s, c = some s → s < m.next)
    (how : Ending) : Coherent cfg (m.finish t c how) :=
  h.suspend (.outside rfl (by simp) hc (by simp [Pc.rest])) rfl

theorem Running.enqueue (h : Running cfg m t none) : Running cfg (m.enqueue t s) t none :=
  h.frame (h.registry.congr rfl rfl fun _ => by grind) ⟨Nat.le_refl _,fun r _ hr => by simpa using hr⟩
    rfl rfl fun _ => by grind

theorem Running.dequeue (h : Running cfg m t none) : Running cfg (m.dequeue t s) t none :=
  h.frame (h.registry.congr rfl rfl fun _ => by grind) ⟨Nat.le_refl _,fun r _ hr => by simpa using hr⟩
    rfl rfl fun _ => by grind

theorem Locks.coherent (h : Running cfg m t none) (hs : s < m.next)
    (hc : ∀ r, u.created = some r → r = s) (locks : Locks m t u s m') : Coherent cfg m' := by
  cases locks with
  | waits =>
    refine h.enqueue.suspend ⟨?_,by simp [Pc.rest],?_,by simp,by simp⟩ rfl
    · rintro r ⟨⟩
      exact hs
    · rintro _ _ r ⟨⟩ ⟨⟩ hr
      exact hc r hr
  | enters free => exact (h.take (owner_of_free m s free)).enter hs hc

theorem Leaves.coherent (h : Running cfg m t none) (hu : ∀ s, u.created = some s → s < m.next)
    {how : Ending} (leaves : Leaves m t u how m') : Coherent cfg m' := by
  cases leaves with
  | ends => exact h.finish hu how
  | gone he => exact h.finish (by rintro _ ⟨⟩; exact hu _ (by rw [he]; rfl)) _
  | cleans he hs locks =>
    exact locks.coherent h (h.registry.registered_lt hs) (by rintro r ⟨⟩; rfl)

theorem Enters.coherent (h : Running cfg m t none) {id : SessionId}
    (hu : ∀ s, u.created = some s → s < m.next ∧ id = cfg.tokenUrlsafe s)
    (enters : Enters m t u id m') : Coherent cfg m' := by
  cases enters with
  | missing _ leaves => exact leaves.coherent h fun s hs => (hu s hs).1
  | locks hid locks =>
    obtain ⟨hr,hi⟩ := h.registry.registered_of_get hid
    exact locks.coherent h (h.registry.registered_lt hr)
      fun r hc => cfg.token_injective ((hu r hc).2.symm.trans hi)

theorem Sweeps.coherent (h : Running cfg m t none) {now : ℕ} {left : List Ref}
    (hl : ∀ s ∈ left, s < m.next) (sweeps : Sweeps cfg m t now left m') : Coherent cfg m' := by
  cases sweeps with
  | passed => exact h.finish (by simp) _
  | @waits s rest reaches =>
    refine h.enqueue.suspend (.outside rfl (by simp) ?_ ?_) rfl
    · rintro r ⟨⟩
      exact hl _ (reaches.suffix.subset List.mem_cons_self)
    · exact fun r hr => hl r (reaches.suffix.subset (List.mem_cons_of_mem _ hr))
  | @deletes s rest reaches free =>
    refine (h.take (owner_of_free m s free)).suspend
      (.outside rfl (by simp) ?_ ?_) rfl
    · rintro r ⟨⟩
      exact hl _ (reaches.suffix.subset List.mem_cons_self)
    · exact fun r hr => hl r (reaches.suffix.subset (List.mem_cons_of_mem _ hr))

theorem Running.pop (h : Running cfg m t l) (s : Ref) : Running cfg (m.pop s) t l :=
  h.frame (h.registry.pop s)
    ⟨Nat.le_refl _,fun r _ hr => ((h.registry.pop_registered s r).mp hr).1⟩ rfl rfl fun _ => rfl

theorem Running.setDir (h : Running cfg m t l) (s : Ref) (d : Option D) : Running cfg (m.setDir s d) t l :=
  h.frame (h.registry.congr rfl rfl fun _ => rfl) ⟨Nat.le_refl _,fun _ _ hr => hr⟩ rfl rfl fun _ => rfl

theorem Running.releaseProjectId (h : Running cfg m t l) (p : Option ℕ) :
    Running cfg (m.releaseProjectId p) t l := by
  rw [releaseProjectId_eq]
  exact h.frame (h.registry.congr rfl rfl fun _ => rfl) ⟨Nat.le_refl _,fun _ _ hr => hr⟩ rfl rfl
    fun _ => rfl

theorem Running.abandon (h : Running cfg m t l) (hs : s < m.next) (hr : m.registered s = false) :
    Running cfg (m.abandon s) t l where
  registry := h.registry.congr rfl rfl fun _ => rfl
  abandoned r hm := by
    rcases List.mem_cons.mp hm with rfl | hm
    · exact ⟨hs,hr⟩
    · exact h.abandoned r hm
  sound t' ht := (h.sound t' ht).forward ⟨Nat.le_refl _,fun _ _ hr => hr⟩
  locks := h.locks
  own := h.own

theorem Running.afterRemoval (h : Running cfg m t l) (hs : s < m.next) (sig : Signal) :
    Running cfg (m.afterRemoval s sig) t l := by
  cases sig with
  | ok => exact ((h.setDir s none).releaseProjectId (m.heap s).projectId).pop s
  | cancelled => exact (h.pop s).abandon hs (h.registry.popped s)
  | osError | timeout | exception => exact h.pop s

theorem Pc.session_of_holds {pc : Pc A} (h : pc.holds = some s) : pc.session = some s := by
  cases pc <;> simp_all [Pc.holds,Pc.session]

/-- A fresh session object joins the registry with a free lock. -/
theorem Running.register (h : Running cfg m t none) (hs : m'.sessions = m.sessions)
    (hh : m'.heap = m.heap) (hn : m'.next = m.next+1) (ha : m'.abandoned = m.abandoned)
    (ht : m'.task = m.task) {x : Session} (hx : x.id = cfg.tokenUrlsafe m.next)
    (hl : x.lock = Lock.new) : Running cfg (m'.register m.next x) t none := by
  have hlt : m.next < (m'.register m.next x).next := by
    change m.next < m'.next
    rw [hn]
    exact Nat.lt_succ_self _
  have hf : Forward m (m'.register m.next x) := by
    refine ⟨Nat.le_of_lt hlt,fun s hlt hr => ?_⟩
    rcases (h.registry.register_registered hs hh hn hx s).mp hr with hr | rfl
    · exact hr
    · exact absurd hlt (Nat.lt_irrefl _)
  have ho (s : Ref) : (m'.register m.next x).owner s = if s = m.next then none else m.owner s := by
    simp only [owner,Manager.register,setSession_heap,hh]
    split_ifs <;> simp [hl,Lock.new]
  refine ⟨h.registry.register hs hh hn hx,?_,?_,?_,?_⟩
  · intro s hm
    change s ∈ m'.abandoned at hm
    rw [ha] at hm
    obtain ⟨hlt,hu⟩ := h.abandoned s hm
    rw [Bool.eq_false_iff] at hu ⊢
    exact ⟨Nat.lt_of_lt_of_le hlt hf.1,fun hr => hu (hf.2 s hlt hr)⟩
  · intro t' hne
    change Pc.Sound _ (m'.task t')
    rw [ht]
    exact (h.sound t' hne).forward hf
  · intro s t' hne
    rw [ho]
    change _ ↔ (m'.task t').holds = some s
    rw [ht]
    split_ifs with he
    · have hno : (m.task t').holds ≠ some m.next := fun hq =>
        Nat.lt_irrefl _ ((h.sound t' hne).session_lt _ (Pc.session_of_holds hq))
      simp [he,hno]
    · exact h.locks s t' hne
  · intro s
    rw [ho]
    split_ifs with he
    · simp
    · simpa using h.own s

theorem Created.coherent (h : Running cfg m t none) (hs : s < m.next) {k : Creator A}
    (created : Created m t s k m') : Coherent cfg m' := by
  cases created with
  | handedOut => exact h.finish (by rintro _ ⟨⟩; exact hs) _
  | seeds =>
    exact h.suspend (.outside rfl (by simp) (by rintro _ ⟨⟩; exact hs) (by simp [Pc.rest])) rfl
  | executes enters =>
    refine enters.coherent h ?_
    rintro _ ⟨⟩
    exact ⟨hs,h.registry.ids s⟩

theorem Running.mkdtemp (h : Running cfg m t none) (fs : Storage D A) :
    Running cfg (m.mkdtemp fs) t none := by
  refine h.frame ⟨h.registry.ids,fun p hp => ?_,h.registry.nodup⟩
    ⟨Nat.le_succ _,fun _ _ hr => hr⟩ rfl rfl fun _ => rfl
  have he := h.registry.entries p hp
  exact ⟨Nat.lt_succ_of_lt he.1,he.2⟩

/-- `create` registers the object it made, whatever it allocated for it. -/
theorem Running.made (h : Running cfg m t none) (fs : Storage D A) (p : Option ℕ) (free : List ℕ)
    (nextId : ℕ) : Running cfg
      (Manager.register { m.mkdtemp fs with freeProjectIds := free, nextProjectId := nextId } m.next
        (m.newSession cfg p)) t none := by
  apply Running.register h <;> rfl

theorem Creates.coherent {fs : Storage D A} (h : Running cfg m t none) {k : Creator A}
    (creates : Creates fs cfg m t k m') : Coherent cfg m' := by
  cases creates with
  | refused => exact h.finish (by simp) _
  | exhausted => exact (h.mkdtemp fs).finish (by simp) _
  | quota _ allocated =>
    obtain ⟨free,nextId,rfl⟩ := allocateProjectId_frame allocated
    refine (h.made fs _ free nextId).suspend (.outside rfl (by simp) ?_ (by simp [Pc.rest])) rfl
    rintro _ ⟨⟩
    exact Nat.lt_succ_self _
  | plain _ created =>
    exact created.coherent (h.made fs none m.freeProjectIds m.nextProjectId) (Nat.lt_succ_self _)

theorem Running.undo (h : Running cfg m t none) (hs : s < m.next) : Coherent cfg (m.undo t s) := by
  refine ((h.pop s).releaseProjectId _).suspend
    ⟨?_,by simp [Pc.rest],by simp [Pc.use],by simp,?_⟩ rfl
  · rintro _ ⟨⟩
    rw [releaseProjectId_eq]
    exact hs
  · rintro _ ⟨⟩
    simpa using h.registry.popped s

theorem owner_of_granted (h : m.granted t s = true) : m.owner s = none := by
  simp only [granted,Bool.and_eq_true,Option.isNone_iff_eq_none] at h
  exact h.1

theorem Pc.Sound.created_lt {pc : Pc A} (h : Pc.Sound m pc) (hu : pc.use = some u)
    (hs : pc.session = some s) (r : Ref) (hr : u.created = some r) : r < m.next :=
  h.created u s r hu hs hr ▸ h.session_lt s hs

theorem Coherent.resume {fs : Storage D A} (h : Coherent cfg m) {sig : Signal}
    (resumes : Resumes fs cfg m t sig m') : Coherent cfg m' := by
  have hsound := h.sound t
  have hrun := h.running t
  cases resumes with
  | @quotaSet k s m' pc created =>
    rw [pc] at hsound hrun
    exact created.coherent hrun (hsound.session_lt s rfl)
  | @quotaFailed k s sig pc _ =>
    rw [pc] at hsound hrun
    exact hrun.undo (hsound.session_lt s rfl)
  | @undone s pc =>
    rw [pc] at hsound hrun
    exact (hrun.setDir s none).finish hsound.session_lt _
  | @undoAbandoned s pc =>
    rw [pc] at hsound hrun
    exact (hrun.abandon (hsound.session_lt s rfl) (hsound.undone s rfl)).finish hsound.session_lt _
  | undoFailed pc | seedCancelled pc | seeded pc | seedFailed pc =>
    rw [pc] at hsound hrun
    exact hrun.finish hsound.session_lt _
  | @seedPart s a parts d d' pc =>
    rw [pc] at hsound hrun
    exact (hrun.setDir s _).suspend
      (.outside rfl (by simp) hsound.session_lt (by simp [Pc.rest])) rfl
  | @seedCleans s parts sig m' pc _ _ locks =>
    rw [pc] at hsound hrun
    exact locks.coherent hrun (hsound.session_lt s rfl) (by rintro r ⟨⟩; rfl)
  | @entered u s pc granted hs =>
    rw [pc] at hsound hrun
    exact (hrun.take (owner_of_granted granted)).enter (hsound.session_lt s rfl)
      (hsound.created u s · rfl rfl)
  | @retired u s m' pc granted _ leaves =>
    rw [pc] at hsound hrun
    exact leaves.coherent (hrun.take (owner_of_granted granted)).unlock (hsound.created_lt rfl rfl)
  | waitedTooLong pc leaves | waitCancelled pc leaves =>
    rw [pc] at hsound hrun
    exact leaves.coherent hrun.dequeue (hsound.created_lt rfl rfl)
  | left pc leaves =>
    rw [pc] at hsound hrun
    exact leaves.coherent hrun.unlock (hsound.created_lt rfl rfl)
  | @removed u s sig m' pc leaves =>
    rw [pc] at hsound hrun
    have hrem := hrun.afterRemoval (hsound.session_lt s rfl) sig
    refine leaves.coherent hrem.unlock fun r hr => ?_
    obtain ⟨free,dir,abandoned,he⟩ := afterRemoval_frame m s sig
    rw [he]
    exact hsound.created_lt rfl rfl r hr
  | @swept now s rest pc granted _ =>
    rw [pc] at hsound hrun
    exact (hrun.take (owner_of_granted granted)).suspend
      (.outside rfl (by simp) hsound.session_lt hsound.rest_lt) rfl
  | skipped pc granted _ sweeps =>
    rw [pc] at hsound hrun
    exact sweeps.coherent (hrun.take (owner_of_granted granted)).unlock hsound.rest_lt
  | passed pc sweeps =>
    rw [pc] at hsound hrun
    exact sweeps.coherent hrun.dequeue hsound.rest_lt
  | sweepCancelled pc =>
    rw [pc] at hsound hrun
    exact hrun.dequeue.finish (by simp) _
  | shielded pc =>
    rw [pc] at hsound hrun
    exact hrun.suspend (.outside rfl (by simp) hsound.session_lt hsound.rest_lt) rfl
  | @deleted cancelled now s rest sig pc _ =>
    rw [pc] at hsound hrun
    obtain ⟨free,dir,abandoned,he⟩ := afterRemoval_frame m s sig
    refine (hrun.afterRemoval (hsound.session_lt s rfl) sig).suspend
      (.outside rfl (by simp) ?_ ?_) rfl
    · rw [he]
      exact hsound.session_lt
    · rw [he]
      exact hsound.rest_lt
  | sweepEnded pc _ =>
    rw [pc] at hsound hrun
    exact hrun.unlock.finish (by simp) _
  | sweepWent pc _ sweeps =>
    rw [pc] at hsound hrun
    exact sweeps.coherent hrun.unlock hsound.rest_lt

/-- Time, worker threads and the bodies of requests touch neither registry nor locks. -/
theorem Coherent.outside (h : Coherent cfg m) (clock : ℕ) (dir : Ref → Option D)
    {abandoned : List Ref} (ha : abandoned ⊆ m.abandoned) :
    Coherent cfg { m with clock := clock, dir := dir, abandoned := abandoned } where
  registry := h.registry.congr rfl rfl fun _ => rfl
  abandoned s hs := h.abandoned s (ha hs)
  sound t := (h.sound t).forward ⟨Nat.le_refl _,fun _ _ hr => hr⟩
  locks := h.locks

theorem Coherent.step {fs : Storage D A} (h : Coherent cfg m) {e : Event D A}
    (hstep : m.step fs cfg e = some m') : Coherent cfg m' := by
  have hrun {t : TaskId} (idle : m.task t = .idle) : Running cfg m t none := by
    have hr := h.running t
    rwa [idle] at hr
  cases step_cases h.registry hstep with
  | tick | write | erode | abandonedErode => exact h.outside _ _ (List.Subset.refl _)
  | abandonedEnd => exact h.outside _ _ List.erase_subset
  | create idle creates => exact creates.coherent (hrun idle)
  | request idle enters => exact enters.coherent (hrun idle) (by rintro s ⟨⟩)
  | delete idle enters => exact enters.coherent (hrun idle) (by rintro s ⟨⟩)
  | sweep idle sweeps =>
    refine sweeps.coherent (hrun idle) fun s hs => ?_
    exact h.registry.registered_lt (h.registry.registered_iff.mpr hs)
  | resume resumes => exact h.resume resumes

theorem Coherent.init (cfg : Config) : Coherent cfg (init cfg : Manager D A) where
  registry := ⟨fun _ => rfl,by simp [Manager.init],by simp [Manager.init]⟩
  abandoned := by simp [Manager.init]
  sound _ := .outside rfl (by simp [Manager.init]) (by simp [Manager.init,Pc.session])
    (by simp [Manager.init,Pc.rest])
  locks := by simp [Manager.init,owner,Lock.new,Pc.holds]

/-- Every reachable state of the manager is coherent. -/
theorem coherent_of_run {fs : Storage D A} {h : List (Manager D A × Event D A)}
    (run : Machine.Run (step fs cfg) (init cfg) h m) : Coherent cfg m := by
  induction run with
  | start => exact Coherent.init cfg
  | next _ taken ih => exact ih.step taken

end Manager
end CodeExecutorApi
