import Mathlib.Data.Set.Basic
import CodeExecutorApi.Sessions.Quota
import CodeExecutorApi.Sessions.Steps

/-! What a `create` that raises leaves behind: the registry, the project ids that can still be
given out, and the session directories on disk. -/
namespace CodeExecutorApi
open Python Machine

namespace Manager
variable {D A : Type} (m : Manager D A)

/-- The free list and the unused range. -/
def allocatable : Set ℕ :=
  {p | p ∈ m.freeProjectIds ∨ m.nextProjectId ≤ p ∧ p ≤ projectIdMax}

/-- The session directories on disk. -/
def directories : Set Ref := {s | (m.dir s).isSome = true}

def idsLeft : Prop := m.freeProjectIds ≠ [] ∨ m.nextProjectId ≤ projectIdMax

/-- Registry, project ids and directories are what they were. -/
structure Restored (m' : Manager D A) : Prop where
  sessions : m'.sessions = m.sessions
  allocatable : m'.allocatable = m.allocatable
  directories : m'.directories = m.directories

theorem Restored.refl : m.Restored m := ⟨rfl,rfl,rfl⟩

variable {m} {m' : Manager D A} {fs : Storage D A} {cfg : Config} {s : Ref} {p : ℕ}

theorem allocateProjectId_none : m.allocateProjectId = none ↔ ¬m.idsLeft := by
  unfold allocateProjectId idsLeft
  cases hfree : m.freeProjectIds.getLast? with
  | none =>
    have hnil := List.getLast?_eq_none_iff.mp hfree
    simp [hnil]
  | some p =>
    have hne : m.freeProjectIds ≠ [] := by
      intro hnil
      simp [hnil] at hfree
    simp [hne]

/-- Allocating an id and giving it back makes no difference to the ids that can be given out. -/
theorem allocatable_released (ids : m.allocateProjectId = some (p,m')) :
    (m'.releaseProjectId (some p)).allocatable = m.allocatable := by
  ext q
  obtain ⟨happ,rfl⟩ | ⟨rfl,hmax,rfl⟩ := allocateProjectId_cases ids
  · simp only [allocatable,releaseProjectId,Set.mem_ofPred_eq,happ]
  · have hrange : (q = m.nextProjectId ∨ m.nextProjectId+1 ≤ q ∧ q ≤ projectIdMax) ↔
        m.nextProjectId ≤ q ∧ q ≤ projectIdMax := by omega
    simp only [allocatable,releaseProjectId,Set.mem_ofPred_eq,List.mem_append,
      List.mem_singleton,or_assoc,hrange]

/-- Unregistering the session made last leaves those registered before. -/
theorem register_pop (hr : Registry cfg m) (hs : m'.sessions = m.sessions) {x : Session}
    (hx : x.id = cfg.tokenUrlsafe m.next) :
    ((m'.register m.next x).pop m.next).sessions = m.sessions := by
  have hkeep (e : SessionId × Ref) (he : e ∈ m.sessions) : (e.1 != x.id) = true := by
    obtain ⟨hlt,hid⟩ := hr.entries e he
    rw [hid,hx,bne_iff_ne]
    exact fun h => Nat.ne_of_lt hlt (cfg.token_injective h)
  simp [pop,register,setSession_heap,List.filter_append,hs,List.filter_eq_self.mpr hkeep]

theorem directories_mkdtemp (fs : Storage D A) :
    (m.mkdtemp fs).directories = insert m.next m.directories := by
  ext s
  simp only [directories,mkdtemp,Set.mem_ofPred_eq,Set.mem_insert_iff,setDir_dir]
  by_cases hs : s = m.next
  · simp [hs]
  · simp [hs]

theorem directories_setDir_none (m : Manager D A) (s : Ref) :
    (m.setDir s none).directories = m.directories \ {s} := by
  ext r
  simp only [directories,Set.mem_ofPred_eq,Set.mem_sdiff,Set.mem_singleton_iff,setDir_dir]
  by_cases hr : r = s
  · simp [hr]
  · simp [hr]

end Manager

/-- The directory is gone when `create` raises. -/
def RemovalOutcome.gone : RemovalOutcome → Bool
  | .removed => true
  | .osError => false
  | .cancelled already => already

section Undo
variable {D A : Type} {fs : Storage D A} {cfg : Config} {table : DigitTable}
  {settings : QuotaSettings} {outside : Outside} {h h' : QuotaHost D A} {s : Ref}

theorem undoCreate_sessions : (undoCreate outside s h).2.manager.sessions =
    (h.manager.pop s).sessions := by
  unfold undoCreate
  rw [Manager.releaseProjectId_eq]
  cases outside.removal with
  | removed => rfl
  | osError => rfl
  | cancelled removed => cases removed <;> rfl

theorem undoCreate_allocatable : (undoCreate outside s h).2.manager.allocatable =
    (h.manager.releaseProjectId (h.manager.heap s).projectId).allocatable := by
  unfold undoCreate
  simp only [Manager.releaseProjectId_eq]
  cases outside.removal with
  | removed => rfl
  | osError => rfl
  | cancelled removed => cases removed <;> rfl

theorem undoCreate_directories : (undoCreate outside s h).2.manager.directories =
    if outside.removal.gone then h.manager.directories \ {s} else h.manager.directories := by
  unfold undoCreate
  rw [Manager.releaseProjectId_eq]
  cases outside.removal with
  | removed => exact Manager.directories_setDir_none _ s
  | osError => rfl
  | cancelled removed =>
    cases removed with
    | true => exact Manager.directories_setDir_none _ s
    | false => rfl

/-- Undoing a registration leaves nothing but, perhaps, the directory. -/
theorem undoCreate_restored (hr : Manager.Registry cfg h.manager)
    (fresh : h.manager.next ∉ h.manager.directories) {m : Manager D A} {p : ProjectId}
    {limits : ProjectId → HardLimits}
    (ids : (h.manager.mkdtemp fs).allocateProjectId = some (p,m)) :
    h.manager.Restored (undoCreate outside h.manager.next
        { h.registered cfg m (some p) with hardLimits := limits }).2.manager ↔
      outside.removal.gone = true := by
  have hallocatable := Manager.allocatable_released ids
  obtain ⟨free,nextId,rfl⟩ := Manager.allocateProjectId_frame ids
  have hdirectories := Manager.directories_mkdtemp (m := h.manager) fs
  constructor
  · intro hrestored
    by_contra hgone
    have hleft := hrestored.directories
    rw [undoCreate_directories,if_neg hgone] at hleft
    apply fresh
    rw [← hleft]
    exact hdirectories.symm ▸ Set.mem_insert _ _
  · intro hgone
    refine ⟨?_,?_,?_⟩
    · rw [undoCreate_sessions]
      exact Manager.register_pop hr rfl rfl
    · rw [undoCreate_allocatable]
      simp only [QuotaHost.registered,Manager.register,Manager.setSession_heap,if_true,
        Manager.newSession]
      exact hallocatable
    · rw [undoCreate_directories,if_pos hgone]
      change (h.manager.mkdtemp fs).directories \ {h.manager.next} = h.manager.directories
      rw [hdirectories,Set.insert_sdiff_self_of_notMem fresh]

/-- A `create` that raises restores everything unless it runs out of project ids, with the
directory already made, or is cancelled while it removes the directory. -/
theorem create_restored_iff (hr : Manager.Registry cfg h.manager)
    (fresh : h.manager.next ∉ h.manager.directories) (removal : outside.removal ≠ .osError)
    {e : CreateError} (raised : createSession fs cfg table settings outside h = (.error e,h')) :
    h.manager.Restored h'.manager ↔
      cfg.maxSessions ≤ h.manager.sessions.length ∨ outside.mkdtemp = none ∨
        (h.manager.idsLeft ∧ outside.removal ≠ .cancelled false) := by
  have hcases := createSession_cases fs cfg table settings outside h
  rw [raised] at hcases
  cases hcases with
  | full room => exact iff_of_true (Manager.Restored.refl _) (.inl room)
  | noDirectory _ made => exact iff_of_true (Manager.Restored.refl _) (.inr (.inl made))
  | exhausted room made _ ids =>
    have hids : ¬h.manager.idsLeft :=
      Manager.allocateProjectId_none (m := h.manager.mkdtemp fs).mp ids
    refine iff_of_false (fun hrestored => fresh ?_) (by simp [room,made,hids])
    rw [← hrestored.directories]
    exact Manager.directories_mkdtemp fs ▸ Set.mem_insert _ _
  | undone room made _ ids =>
    have hids : h.manager.idsLeft := by
      by_contra hnone
      have := Manager.allocateProjectId_none (m := h.manager.mkdtemp fs).mpr hnone
      simp [ids] at this
    have hgone : outside.removal.gone = true ↔ outside.removal ≠ .cancelled false := by
      cases hremoval : outside.removal with
      | removed => simp [RemovalOutcome.gone]
      | osError => exact absurd hremoval removal
      | cancelled already => simp [RemovalOutcome.gone]
    rw [undoCreate_restored hr fresh ids,hgone]
    simp [room,made,hids]

end Undo

/-- A service that has given out every project id and got none back. -/
def QuotaHost.exhausted : QuotaHost (List ℕ) ℕ :=
  ⟨{ Manager.init .tight with nextProjectId := projectIdMax+1 },fun _ => ⟨0,0⟩⟩

theorem QuotaHost.exhausted_registry : Manager.Registry .tight QuotaHost.exhausted.manager where
  ids _ := rfl
  entries p hp := by cases hp
  nodup := List.nodup_nil

theorem QuotaHost.exhausted_raises : ∃ e h',
    createSession .log .tight .ascii .small .rounding .exhausted = (.error e,h') := by
  have herror : (createSession .log .tight .ascii .small .rounding .exhausted).1 = .error
      (.quotaSetupFailed (lit "Exhausted available XFS project ids")) := by decide +kernel
  exact ⟨_,_,Prod.ext herror rfl⟩

theorem QuotaHost.exhausted_fresh :
    QuotaHost.exhausted.manager.next ∉ QuotaHost.exhausted.manager.directories := by
  simp [Manager.directories,exhausted,Manager.init]

theorem create_restored_iff_exhausted : ∃ e h',
    createSession .log .tight .ascii .small .rounding .exhausted = (.error e,h') ∧
      (QuotaHost.exhausted.manager.Restored h'.manager ↔
        Config.tight.maxSessions ≤ QuotaHost.exhausted.manager.sessions.length ∨
          Outside.rounding.mkdtemp = none ∨
            (QuotaHost.exhausted.manager.idsLeft ∧ Outside.rounding.removal ≠ .cancelled false)) := by
  obtain ⟨e,h',raised⟩ := QuotaHost.exhausted_raises
  exact ⟨e,h',raised,
    create_restored_iff QuotaHost.exhausted_registry QuotaHost.exhausted_fresh (by decide) raised⟩

/-- Without a project id the directory made first stays behind. -/
theorem create_leaves_directory : ¬∀ (h h' : QuotaHost (List ℕ) ℕ) (outside : Outside)
    (e : CreateError),
    Manager.Registry .tight h.manager → h.manager.next ∉ h.manager.directories →
      outside.removal = .removed →
        createSession .log .tight .ascii .small outside h = (.error e,h') →
          h.manager.Restored h'.manager := by
  intro hall
  obtain ⟨e,h',raised⟩ := QuotaHost.exhausted_raises
  have hdirectories := (hall .exhausted h' .rounding e QuotaHost.exhausted_registry
    QuotaHost.exhausted_fresh rfl raised).directories
  have hmade : (createSession .log .tight .ascii .small .rounding .exhausted).2.manager.dir 0 =
      some [] := by decide +kernel
  rw [raised] at hmade
  apply QuotaHost.exhausted_fresh
  rw [← hdirectories]
  exact Option.isSome_iff_exists.mpr ⟨[],hmade⟩

section Refinement
variable {D A : Type} {fs : Storage D A} {cfg : Config} {table : DigitTable}
  {settings : QuotaSettings} {outside : Outside} {h : QuotaHost D A} {t : TaskId} {s : Ref}

theorem Manager.setPc_setPc (m : Manager D A) (pc pc' : Pc A) :
    (m.setPc t pc).setPc t pc' = m.setPc t pc' := by
  simp [setPc]

theorem Manager.undo_setPc (m : Manager D A) (pc : Pc A) : (m.setPc t pc).undo t s =
    ((m.pop s).releaseProjectId (m.heap s).projectId).setPc t (.undoCreate s) := by
  simp [undo,pop,setPc,releaseProjectId_eq]

/-- The except branch of `create` is a run of the machine in which other tasks may step between. -/
theorem undoCreate_run {m₀ : Manager D A} {past : List (Manager D A × Event D A)} {k : Creator A}
    (run : Machine.Run (Manager.step fs cfg) m₀ past (h.manager.setPc t (.applyQuota k s))) :
    ∃ past pc, Machine.Run (Manager.step fs cfg) m₀ past
      ((undoCreate outside s h).2.manager.setPc t pc) := by
  let m := (h.manager.pop s).releaseProjectId (h.manager.heap s).projectId
  have undone : Machine.Run (Manager.step fs cfg) m₀ _ (m.setPc t (.undoCreate s)) :=
    run.next (e := .resume t .exception) (by
      simp [Manager.step,Manager.resume,Manager.setPc_task,Manager.undo_setPc,m])
  have removal (sig : Signal) (m' : Manager D A) (how : Ending)
      (hm : (m.setPc t (.undoCreate s)).resume fs cfg t sig =
        some ((m'.setPc t (.undoCreate s)).finish t (some s) how)) :
      ∃ past, Machine.Run (Manager.step fs cfg) m₀ past (m'.setPc t (.done (some s) how)) := by
    rw [Manager.finish,Manager.setPc_setPc] at hm
    exact ⟨_,undone.next (e := Event.resume t sig) hm⟩
  cases hremoval : outside.removal with
  | removed =>
    obtain ⟨past,hrun⟩ := removal .ok (m.setDir s none) .failed (by
      simp only [Manager.resume,Manager.setPc_task,if_true]
      rfl)
    exact ⟨past,_,by simpa only [undoCreate,hremoval] using hrun⟩
  | osError =>
    obtain ⟨past,hrun⟩ := removal .osError m .failed (by
      simp only [Manager.resume,Manager.setPc_task,if_true])
    exact ⟨past,_,by simpa only [undoCreate,hremoval] using hrun⟩
  | cancelled already =>
    obtain ⟨past,hrun⟩ := removal .cancelled (m.abandon s) .cancelled (by
      simp only [Manager.resume,Manager.setPc_task,if_true]
      rfl)
    cases already with
    | false =>
      exact ⟨past,_,by simpa only [undoCreate,hremoval,Bool.false_eq_true,if_false] using hrun⟩
    | true =>
      refine ⟨_,.done (some s) .cancelled,hrun.next (e := .abandonedEnd s true) ?_⟩
      simp [Manager.step,undoCreate,hremoval,Manager.abandon,Manager.setPc,Manager.setDir,m]

/-- Every outcome of `create` is that of a run of the machine, in which task `t` creates. -/
theorem createSession_run (idle : h.manager.task t = .idle) :
    ∃ past pc, Machine.Run (Manager.step fs cfg) h.manager past
      ((createSession fs cfg table settings outside h).2.manager.setPc t pc) := by
  have begin (mkdtemp : Bool) {m : Manager D A}
      (hm : h.manager.create fs cfg t .create mkdtemp = m) :
      Machine.Run (Manager.step fs cfg) h.manager _ m :=
    Machine.Run.start.next (e := .create t .create mkdtemp) (by
      simp [Manager.step,Manager.idle,idle,hm])
  have hcases := createSession_cases fs cfg table settings outside h
  generalize createSession fs cfg table settings outside h = r at hcases ⊢
  obtain ⟨r,h'⟩ := r
  cases hcases with
  | full room =>
    exact ⟨_,_,begin true (by simp only [Manager.create,if_pos room]; rfl)⟩
  | noDirectory room made =>
    exact ⟨_,_,begin false (by simp only [Manager.create,if_neg room]; rfl)⟩
  | exhausted room made quota ids =>
    exact ⟨_,_,begin true (by simp only [Manager.create,if_neg room,if_true,quota,ids]; rfl)⟩
  | unlimited room made quota =>
    exact ⟨_,_,begin true (by simp only [Manager.create,if_neg room,if_true,quota]; rfl)⟩
  | @limited _ p m room made quota ids =>
    have made := begin true (m := (m.register h.manager.next
        (h.manager.newSession cfg (some p))).setPc t (.applyQuota .create h.manager.next))
      (by simp only [Manager.create,if_neg room,if_true,quota,ids])
    have handedOut : Manager.step fs cfg ((m.register h.manager.next
        (h.manager.newSession cfg (some p))).setPc t (.applyQuota .create h.manager.next))
          (.resume t .ok) = some ((m.register h.manager.next (h.manager.newSession cfg
            (some p))).setPc t (.done (some h.manager.next) .handedOut)) := by
      simp [Manager.step,Manager.resume,Manager.setPc_task,Manager.created,Manager.finish,
        Manager.setPc_setPc]
    exact ⟨_,_,made.next handedOut⟩
  | undone room made quota ids =>
    exact undoCreate_run (begin true (by
      simp only [Manager.create,if_neg room,if_true,quota,ids]; rfl))

end Refinement
end CodeExecutorApi
