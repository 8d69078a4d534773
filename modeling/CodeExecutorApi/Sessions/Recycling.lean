import CodeExecutorApi.Sessions.IdleSweep
import CodeExecutorApi.Sessions.LockSoundness
import CodeExecutorApi.Sessions.ProjectIds

/-! Which directories on disk carry a project id. The deletion path gives an id back once the
directory is gone, the failure path of `create` before that. -/
namespace CodeExecutorApi
namespace Manager
variable {D A : Type}

/-- The directory of `s` is on disk and counts against the project `p`. -/
def onDisk (m : Manager D A) (s : Ref) (p : ℕ) : Prop :=
  (m.dir s).isSome = true ∧ (m.heap s).projectId = some p

instance (m : Manager D A) (s : Ref) (p : ℕ) : Decidable (m.onDisk s p) :=
  inferInstanceAs (Decidable (_ ∧ _))

/-- Free ids are free once, no directory on disk carries one, and so none carries the id that the
next session gets. -/
structure RecycledClean (m : Manager D A) : Prop where
  once : m.freeProjectIds.Nodup
  clean : ∀ p ∈ m.freeProjectIds, ∀ s, ¬m.onDisk s p
  allocated : ∀ p m', m.allocateProjectId = some (p,m') → ∀ s, ¬m.onDisk s p

/-- A quota setup that fails finds its id withheld: not free, and on no directory. -/
def undoesWithheld (m : Manager D A) : Event D A → Prop
  | .resume t sig => match m.task t with
    | .applyQuota _ s => sig = .ok ∨ ∀ p ∈ (m.heap s).projectId,
        p ∉ m.freeProjectIds ∧ ∀ r < m.next, ¬m.onDisk r p
    | _ => True
  | _ => True

instance (m : Manager D A) (e : Event D A) : Decidable (m.undoesWithheld e) := by
  unfold undoesWithheld
  split
  · split
    · exact inferInstanceAs (Decidable (_ ∨ _))
    · exact .isTrue trivial
  · exact .isTrue trivial

section Deleting
variable {fs : Storage D A} {cfg : Config} {m m' : Manager D A} {t : TaskId} {s : Ref}

theorem Visits.registered {e : Event D A} {now : ℕ} (h : Visits cfg m e now s) :
    m.registered s = true := by
  cases h with
  | begins obtains => exact obtains.1
  | granted _ _ hs => exact hs
  | skipped _ _ _ obtains => simpa using obtains.1
  | passed _ obtains => simpa using obtains.1
  | went _ _ obtains => simpa using obtains.1

/-- Sessions are unregistered by a quota setup that fails and by a removal that ends. -/
theorem Effect.unregisters {e : Event D A} (h : Registry cfg m) (effect : Effect fs cfg m e m')
    (hs : m.registered s = true) (hs' : m'.registered s = false) :
    (∃ t k sig, e = .resume t sig ∧ sig ≠ .ok ∧ m.task t = .applyQuota k s) ∨
      ∃ t sig, e = .resume t sig ∧ (m.task t).deleting = some s := by
  have hpopped {r : Ref} (hr : (m.pop r).registered s = false) : s = r := by
    by_contra hne
    rw [(h.pop_registered r s).mpr ⟨hs,hne⟩] at hr
    cases hr
  cases effect with
  | none | tick | dir | abandonedEnd | abandon | mkdtemp => cases hs.symm.trans hs'
  | made _ allocated =>
    rw [(made_registered h allocated _ s).mpr (.inl hs)] at hs'
    cases hs'
  | plain =>
    rw [(plain_registered fs h s).mpr (.inl hs)] at hs'
    cases hs'
  | @undo t k r sig pc hsig =>
    rw [releaseProjectId_registered] at hs'
    obtain rfl := hpopped hs'
    exact .inl ⟨t,k,sig,rfl,hsig,pc⟩
  | @removed t r sig pc =>
    obtain ⟨free,dir,abandoned,he⟩ := afterRemoval_frame m r sig
    rw [he] at hs'
    obtain rfl := hpopped hs'
    exact .inr ⟨t,sig,rfl,pc⟩

/-- A sweep does not unregister the session whose deletion it awaits. -/
theorem Steps.keeps_deletion {e : Event D A} (h : Registry cfg m) (steps : Steps fs cfg m e m')
    (ht : e.task = some t) {c : Bool} {now : ℕ} {rest : List Ref}
    (hpc : m'.task t = .deletion c now s rest) (hs : m.registered s = true) :
    m'.registered s = true := by
  obtain ⟨m₁,effect,settles⟩ := steps.effect h
  by_contra hno
  rw [Bool.not_eq_true] at hno
  have hno₁ : m₁.registered s = false := by rwa [settles.frame.registered] at hno
  rcases effect.unregisters h hs hno₁ with ⟨t',k,sig,rfl,hsig,hq⟩ | ⟨t',sig,rfl,hdel⟩
  · cases ht
    rcases steps.deletion rfl hpc with ⟨hvisits,_⟩ | ⟨_,hpc'⟩
    · cases hvisits <;> simp_all
    · cases hq.symm.trans hpc'
  · cases ht
    rcases steps.deletion rfl hpc with ⟨hvisits,_⟩ | ⟨rfl,hpc'⟩
    · cases hvisits <;> simp_all [Pc.deleting]
    · obtain ⟨sig',he,resumes⟩ := steps.resumes rfl (by simp [hpc'])
      cases he
      cases resumes with
      | shielded => exact absurd (hs.symm.trans hno) (by simp)
      | deleted => simp [setPc_task] at hpc
      | _ => simp_all

/-- Tasks that are in `_delete` of a session with a project id find it registered. -/
def Deleting (m : Manager D A) (t : TaskId) : Prop :=
  ∀ s p, (m.task t).deleting = some s → (m.heap s).projectId = some p → m.registered s = true

/-- Every registered session has its directory. -/
def Present (m : Manager D A) : Prop := ∀ s, m.registered s = true → (m.dir s).isSome = true

theorem Pc.session_of_deleting {pc : Pc A} (h : pc.deleting = some s) : pc.session = some s := by
  cases pc <;> simp_all [Pc.deleting,Pc.session]

theorem Pc.holds_of_deleting {pc : Pc A} (h : pc.deleting = some s) : pc.holds = some s := by
  cases pc <;> simp_all [Pc.deleting,Pc.holds]

/-- A session whose directory is on disk is not unregistered by a failing quota setup. -/
theorem undoesWithheld_absent {k : Creator A} {sig : Signal} {p : ℕ} (hr : Registry cfg m)
    (hg : m.undoesWithheld (.resume t sig)) (hq : m.task t = .applyQuota k s) (hsig : sig ≠ .ok)
    (hs : m.registered s = true) (hp : (m.heap s).projectId = some p) : (m.dir s).isSome = false := by
  simp only [undoesWithheld,hq] at hg
  have hdisk := ((hg.resolve_left hsig) p hp).2 s (hr.registered_lt hs)
  rw [onDisk,not_and] at hdisk
  rw [Bool.eq_false_iff]
  exact fun hd => hdisk hd hp

theorem Deleting.step {e : Event D A} (hc : Coherent cfg m) (hpresent : Present m)
    (h : ∀ t, Deleting m t) (hg : m.undoesWithheld e) (hstep : m.step fs cfg e = some m') :
    ∀ t, Deleting m' t := by
  intro t s p hdel hp
  have steps := step_cases hc.registry hstep
  obtain ⟨m₁,effect,settles⟩ := steps.effect hc.registry
  have hold (hd : (m.task t).deleting = some s) :
      m.registered s = true ∧ (m.heap s).projectId = some p := by
    have hlt := (hc.sound t).session_lt s (Pc.session_of_deleting hd)
    rw [settles.frame.projectId,effect.heap hlt] at hp
    exact ⟨h t s p hd hp,hp⟩
  by_cases ht : e.task = some t
  · cases hpc : m'.task t with
    | remove u r =>
      rw [hpc] at hdel
      cases hdel
      exact settles.inside_registered ht s (by rw [hpc]; rfl)
    | deletion c now r rest =>
      rw [hpc] at hdel
      cases hdel
      refine steps.keeps_deletion hc.registry ht hpc ?_
      rcases steps.deletion ht hpc with ⟨hvisits,_⟩ | ⟨_,hpc'⟩
      · exact hvisits.registered
      · exact (hold (by rw [hpc']; rfl)).1
    | _ =>
      rw [hpc] at hdel
      cases hdel
  · rw [steps.others hc.registry ht] at hdel
    obtain ⟨hs,hp⟩ := hold hdel
    by_contra hno
    rw [Bool.not_eq_true,settles.frame.registered] at hno
    rcases effect.unregisters hc.registry hs hno with ⟨t',k,sig,rfl,hsig,hq⟩ | ⟨t',sig,rfl,hdel'⟩
    · have habsent := undoesWithheld_absent hc.registry hg hq hsig hs hp
      rw [hpresent s hs] at habsent
      cases habsent
    · have hown := (hc.locks s t).mpr (Pc.holds_of_deleting hdel)
      rw [(hc.locks s t').mpr (Pc.holds_of_deleting hdel'),Option.some.injEq] at hown
      exact ht (by rw [Event.task,hown])

end Deleting

/-- What holds as long as failing quota setups find their ids withheld. -/
structure Recycling (m : Manager D A) : Prop where
  present : Present m
  deleting : ∀ t, Deleting m t
  unmade : ∀ s, m.next ≤ s → (m.heap s).projectId = none
  handedOut : ∀ s p, (m.heap s).projectId = some p → p < m.nextProjectId
  pool : Machine.IdPool m.nextProjectId m.freeProjectIds m.onDisk

section Recycling
variable {fs : Storage D A} {cfg : Config} {m m' : Manager D A} {t : TaskId} {s : Ref}

theorem recycling_init (cfg : Config) : Recycling (init cfg : Manager D A) where
  present s hs := by simp [registered,get,init] at hs
  deleting t s p hd := by cases hd
  unmade s hs := rfl
  handedOut s p hp := by cases hp
  pool := .empty _ fun s p hp => by cases hp.2

/-- Objects that are not made have no id, and all ids are from the range handed out so far. -/
theorem Effect.projectIds {e : Event D A} (h : Recycling m) (effect : Effect fs cfg m e m') :
    (∀ s, m'.next ≤ s → (m'.heap s).projectId = Option.none) ∧
      ∀ s p, (m'.heap s).projectId = some p → p < m'.nextProjectId := by
  have hlater (s : Ref) (hs : m.next+1 ≤ s) := h.unmade s (Nat.le_of_succ_le hs)
  cases effect with
  | none | tick | dir | abandonedEnd | abandon => exact ⟨h.unmade,h.handedOut⟩
  | mkdtemp => exact ⟨hlater,h.handedOut⟩
  | @made t k ok p m₁ room allocated =>
    have hmade (m₁ : Manager D A) (hh : m₁.heap = m.heap) (hn : m₁.next = m.next+1)
        (hle : m.nextProjectId ≤ m₁.nextProjectId) (hp : p < m₁.nextProjectId) :
        (∀ s, m₁.next ≤ s → ((m₁.setSession m.next (m.newSession cfg (some p))).heap s).projectId =
          Option.none) ∧ ∀ s q, ((m₁.setSession m.next (m.newSession cfg (some p))).heap s).projectId =
          some q → q < m₁.nextProjectId := by
      refine ⟨fun s hs => ?_,fun s q hq => ?_⟩
      · rw [hn] at hs
        rw [setSession_heap,hh,if_neg (Nat.ne_of_gt hs)]
        exact hlater s hs
      · rw [setSession_heap,hh] at hq
        split_ifs at hq
        · cases hq
          exact hp
        · exact Nat.lt_of_lt_of_le (h.handedOut s q hq) hle
    rcases allocateProjectId_cases allocated with ⟨happ,rfl⟩ | ⟨rfl,_,rfl⟩
    · refine hmade { m.mkdtemp fs with freeProjectIds := m.freeProjectIds.dropLast } rfl rfl
        (Nat.le_refl _) (h.pool.free_lt p ?_)
      rw [← show m.freeProjectIds.dropLast ++ [p] = m.freeProjectIds from happ]
      simp
    · exact hmade { m.mkdtemp fs with nextProjectId := m.nextProjectId+1 } rfl rfl (Nat.le_succ _)
        (Nat.lt_succ_self _)
  | plain =>
    refine ⟨fun s hs => ?_,fun s q hq => ?_⟩
    · change m.next+1 ≤ s at hs
      rw [register,setSession_heap,if_neg (Nat.ne_of_gt hs)]
      exact hlater s hs
    · rw [register,setSession_heap] at hq
      split_ifs at hq
      · cases hq
      · exact h.handedOut s q hq
  | undo => rw [releaseProjectId_eq]; exact ⟨h.unmade,h.handedOut⟩
  | removed =>
    obtain ⟨free,dir,abandoned,he⟩ := afterRemoval_frame m _ _
    rw [he]
    exact ⟨h.unmade,h.handedOut⟩

theorem setDir_isSome {r : Ref} {d : Option D} (hd : d.isSome = true ∨ r ≠ s)
    (hr : (m.dir r).isSome = true) : ((m.setDir s d).dir r).isSome = true := by
  rw [setDir_dir]
  split_ifs with h
  · exact hd.resolve_right fun hne => hne h
  · exact hr

theorem Present.effect {e : Event D A} (hc : Coherent cfg m) (hp : Present m)
    (effect : Effect fs cfg m e m') : Present m' := by
  cases effect with
  | none | tick | abandon => exact hp
  | @dir e s d hs present kept =>
    intro r hr
    refine setDir_isSome (kept.imp_right ?_) (hp r hr)
    rintro ⟨t,hpc⟩ rfl
    have hun := (hc.sound t).undone r hpc
    cases hun.symm.trans hr
  | @abandonedEnd s removed hs =>
    intro r hr
    refine setDir_isSome (.inr ?_) (hp r hr)
    rintro rfl
    cases (hc.abandoned r hs).2.symm.trans hr
  | mkdtemp => exact fun r hr => setDir_isSome (.inl rfl) (hp r hr)
  | made _ allocated =>
    intro r hr
    rw [made_registered hc.registry allocated] at hr
    obtain ⟨free,nextId,rfl⟩ := allocateProjectId_frame allocated
    change ((m.setDir m.next (some fs.fresh)).dir r).isSome = true
    rcases hr with hr | rfl
    · exact setDir_isSome (.inl rfl) (hp r hr)
    · rw [setDir_dir,if_pos rfl]
      rfl
  | plain =>
    intro r hr
    rw [plain_registered fs hc.registry] at hr
    change ((m.setDir m.next (some fs.fresh)).dir r).isSome = true
    rcases hr with hr | rfl
    · exact setDir_isSome (.inl rfl) (hp r hr)
    · rw [setDir_dir,if_pos rfl]
      rfl
  | undo =>
    rw [releaseProjectId_eq]
    exact fun r hr => hp r ((hc.registry.pop_registered _ r).mp hr).1
  | @removed t s sig pc =>
    intro r hr
    have hpop : (m.pop s).registered r = true := by
      obtain ⟨free,dir,abandoned,he⟩ := afterRemoval_frame m s sig
      rw [he] at hr
      exact hr
    obtain ⟨hreg,hne⟩ := (hc.registry.pop_registered s r).mp hpop
    cases sig with
    | ok =>
      rw [afterRemoval,releaseProjectId_eq]
      exact setDir_isSome (.inr hne) (hp r hreg)
    | osError | timeout | exception | cancelled => exact hp r hreg

/-- The directory made for the next object is the only one that joins. -/
theorem onDisk_register {m₁ : Manager D A} (hd : m₁.dir = (m.mkdtemp fs).dir)
    (hh : m₁.heap = m.heap) {q : Option ℕ} {r : Ref} {p : ℕ}
    (hp : (m₁.register m.next (m.newSession cfg q)).onDisk r p) :
    m.onDisk r p ∨ r = m.next ∧ q = some p := by
  obtain ⟨hdir,hid⟩ := hp
  change (m₁.dir r).isSome = true at hdir
  rw [register,setSession_heap,hh] at hid
  rw [hd,mkdtemp,setDir_dir] at hdir
  split_ifs at hid hdir with hr
  · exact .inr ⟨hr,hid⟩
  · exact .inl ⟨hdir,hid⟩

theorem Recycling.pool_effect {e : Event D A} (h : Recycling m)
    (hg : m.undoesWithheld e) (effect : Effect fs cfg m e m') :
    Machine.IdPool m'.nextProjectId m'.freeProjectIds m'.onDisk := by
  cases effect with
  | none | tick | abandon => exact h.pool
  | @dir e s d hs present =>
    refine h.pool.withhold fun r p hp => ⟨?_,hp.2⟩
    have hdir := hp.1
    rw [setDir_dir] at hdir
    split_ifs at hdir with hr
    · rw [hr]
      exact present hdir
    · exact hdir
  | @abandonedEnd s removed hs =>
    refine h.pool.withhold fun r p hp => ⟨?_,hp.2⟩
    have hdir : ((m.setDir s (if removed then none else m.dir s)).dir r).isSome = true := hp.1
    rw [setDir_dir] at hdir
    split_ifs at hdir with hr
    · cases hdir
    · rwa [hr]
    · exact hdir
  | mkdtemp =>
    refine h.pool.withhold fun r p hp => ⟨?_,hp.2⟩
    have hr : r ≠ m.next := by
      rintro rfl
      cases (h.unmade m.next (Nat.le_refl _)).symm.trans hp.2
    have hdir : ((m.setDir m.next (some fs.fresh)).dir r).isSome = true := hp.1
    rwa [setDir_dir,if_neg hr] at hdir
  | @made t k ok p m₁ room allocated =>
    have hheld (hd : m₁.dir = (m.mkdtemp fs).dir) (hh : m₁.heap = m.heap) (r : Ref) (q : ℕ)
        (hq : (m₁.register m.next (m.newSession cfg (some p))).onDisk r q) :
        m.onDisk r q ∨ r = m.next ∧ q = p := by
      simpa [eq_comm] using onDisk_register hd hh hq
    rcases allocateProjectId_cases allocated with ⟨happ,rfl⟩ | ⟨rfl,_,rfl⟩
    · have hpool : Machine.IdPool m.nextProjectId (m.freeProjectIds.dropLast ++ [p]) m.onDisk := by
        rw [show m.freeProjectIds.dropLast ++ [p] = m.freeProjectIds from happ]
        exact h.pool
      exact hpool.reuse (hheld rfl rfl)
    · exact Machine.IdPool.fresh h.pool (hheld rfl rfl)
  | plain => exact h.pool.withhold fun r q hq => (onDisk_register rfl rfl hq).resolve_right (by simp)
  | @undo t k s sig pc hsig =>
    simp only [undoesWithheld,pc] at hg
    rw [releaseProjectId_eq]
    change Machine.IdPool m.nextProjectId (m.freeProjectIds ++ (m.heap s).projectId.toList) m.onDisk
    cases hid : (m.heap s).projectId with
    | none => simpa using h.pool
    | some p =>
      obtain ⟨hfree,hdisk⟩ := (hg.resolve_left hsig) p hid
      refine h.pool.restore hfree (h.handedOut s p hid) (fun r hr => ?_) fun r q hq => hq
      by_cases hlt : r < m.next
      · exact hdisk r hlt hr
      · cases (h.unmade r (Nat.le_of_not_lt hlt)).symm.trans hr.2
  | @removed t s sig pc =>
    cases sig with
    | ok =>
      have hgone (r : Ref) (q : ℕ) (hq : (m.afterRemoval s .ok).onDisk r q) :
          m.onDisk r q ∧ r ≠ s := by
        rw [afterRemoval,releaseProjectId_eq] at hq
        obtain ⟨hdir,hid⟩ := hq
        change ((m.setDir s none).dir r).isSome = true at hdir
        rw [setDir_dir] at hdir
        split_ifs at hdir with hr
        · cases hdir
        · exact ⟨⟨hdir,hid⟩,hr⟩
      have hfree : (m.afterRemoval s .ok).freeProjectIds =
          m.freeProjectIds ++ (m.heap s).projectId.toList := by
        rw [afterRemoval,releaseProjectId_eq]
        rfl
      have hnext : (m.afterRemoval s .ok).nextProjectId = m.nextProjectId := by
        rw [afterRemoval,releaseProjectId_eq]
        rfl
      rw [hnext,hfree]
      cases hid : (m.heap s).projectId with
      | none => simpa using h.pool.withhold fun r q hq => (hgone r q hq).1
      | some p => exact h.pool.release ⟨h.present s (h.deleting t s p pc hid),hid⟩ hgone
    | osError | timeout | exception | cancelled => exact h.pool

theorem onDisk_frame {actor : Option TaskId} (hf : Frame actor m m') (p : ℕ) :
    m'.onDisk s p ↔ m.onDisk s p := by
  rw [onDisk,onDisk,hf.dir,hf.projectId]

theorem Recycling.step {e : Event D A} (hc : Coherent cfg m) (h : Recycling m)
    (hg : m.undoesWithheld e) (hstep : m.step fs cfg e = some m') : Recycling m' := by
  obtain ⟨m₁,effect,settles⟩ := (step_cases hc.registry hstep).effect hc.registry
  have hf := settles.frame
  obtain ⟨hunmade,hout⟩ := effect.projectIds h
  constructor
  · intro r hr
    rw [hf.registered] at hr
    rw [hf.dir]
    exact h.present.effect hc effect r hr
  · exact Deleting.step hc h.present h.deleting hg hstep
  · intro r hr
    rw [hf.next] at hr
    rw [hf.projectId]
    exact hunmade r hr
  · intro r p hp
    rw [hf.projectId] at hp
    rw [hf.nextProjectId]
    exact hout r p hp
  · rw [hf.nextProjectId,hf.freeProjectIds]
    exact (h.pool_effect hg effect).withhold fun r p hp => (onDisk_frame hf p).mp hp

theorem Recycling.clean (h : Recycling m) : RecycledClean m := by
  refine ⟨h.pool.free_nodup,h.pool.free_unheld,fun p m' hp s hs => ?_⟩
  rcases allocateProjectId_cases hp with ⟨happ,_⟩ | ⟨rfl,_⟩
  · refine h.pool.free_unheld p ?_ s hs
    rw [← happ]
    simp
  · exact Nat.lt_irrefl _ (h.pool.held_lt s _ hs)

/-- A quota setup that fails releases its id at once. -/
theorem RecycledClean.undoesWithheld {e : Event D A} (hstep : m.step fs cfg e = some m')
    (h : RecycledClean m') : m.undoesWithheld e := by
  unfold Manager.undoesWithheld
  split
  · rename_i t sig
    split
    · rename_i k s hpc
      by_cases hsig : sig = .ok
      · exact .inl hsig
      · refine .inr fun p hp => ?_
        simp only [step,resume,hpc,hsig,if_false,Option.some.injEq] at hstep
        subst hstep
        rw [undo,releaseProjectId_eq] at h
        have hfree : (m.freeProjectIds ++ (m.heap s).projectId.toList).Nodup := h.once
        have hclean : ∀ q ∈ m.freeProjectIds ++ (m.heap s).projectId.toList, ∀ r, ¬m.onDisk r q :=
          h.clean
        rw [Option.mem_def.mp hp] at hfree hclean
        refine ⟨fun hmem => ?_,fun r _ => hclean p (by simp) r⟩
        exact (List.nodup_append.mp hfree).2.2 p hmem p (by simp) rfl
    · trivial
  · trivial

end Recycling

/-- Throughout a run the free project ids are clean, each free once and on no directory on disk,
exactly if every quota setup that fails in it finds its id withheld. -/
theorem recycled_clean_iff {fs : Storage D A} {cfg : Config} {m : Manager D A}
    {h : List (Manager D A × Event D A)} (run : Machine.Run (step fs cfg) (init cfg) h m) :
    (RecycledClean m ∧ ∀ p ∈ h, RecycledClean p.1) ↔
      Machine.Guarded (fun m e => m.undoesWithheld e) h := by
  constructor
  · rintro ⟨hm,hh⟩
    induction run with
    | start => simp
    | next run taken ih =>
      obtain ⟨hs,hh⟩ := List.forall_mem_cons.mp hh
      exact (Machine.guarded_cons _ _ _ _).mpr ⟨hm.undoesWithheld taken,ih hs hh⟩
  · intro hg
    have hall : Coherent cfg m ∧ Recycling m ∧ ∀ p ∈ h, RecycledClean p.1 := by
      induction run with
      | start => exact ⟨Coherent.init cfg,recycling_init cfg,by simp⟩
      | next run taken ih =>
        obtain ⟨hge,hgh⟩ := (Machine.guarded_cons _ _ _ _).mp hg
        obtain ⟨hc,hrec,hh⟩ := ih hgh
        exact ⟨hc.step taken,hrec.step hc hge taken,List.forall_mem_cons.mpr ⟨hrec.clean,hh⟩⟩
    exact ⟨hall.2.1.clean,hall.2.2⟩

/-- A session is deleted, and the next one gets its id once the directory is gone. -/
theorem recycled_clean_iff_delete : ∃ h m,
    Machine.Run (step Storage.log Config.tight) (init Config.tight) h m ∧
      m.freeProjectIds = [1000] ∧ RecycledClean m := by
  have hrun : ∃ h m, Machine.replay (step Storage.log Config.tight) [] (init Config.tight)
      [.create 0 .create true,.resume 0 .ok,.delete 1 0,.resume 1 .ok] = some (h,m) ∧
        Machine.Guarded (fun m e => m.undoesWithheld e) h ∧ m.freeProjectIds = [1000] :=
    ⟨_,_,rfl,by decide,rfl⟩
  obtain ⟨h,m,hr,hg,hfree⟩ := hrun
  exact ⟨h,m,Machine.replay_run hr,hfree,((recycled_clean_iff (Machine.replay_run hr)).mpr hg).1⟩

/-- `create` gives the id back while its worker thread has the directory still to remove. -/
theorem project_id_free_on_disk : ¬∀ h m,
    Machine.Run (step Storage.log Config.tight) (init Config.tight) h m →
      ∀ p ∈ m.freeProjectIds, ∀ s, ¬m.onDisk s p := by
  have hrun : ∃ h m, Machine.replay (step Storage.log Config.tight) [] (init Config.tight)
      [.create 0 .create true,.resume 0 .exception] = some (h,m) ∧
        1000 ∈ m.freeProjectIds ∧ m.onDisk 0 1000 := ⟨_,_,rfl,by decide,by decide⟩
  obtain ⟨h,m,hr,hfree,hdisk⟩ := hrun
  exact fun hall => hall h m (Machine.replay_run hr) 1000 hfree 0 hdisk

end Manager
end CodeExecutorApi
