import CodeExecutorApi.Sessions.Coherence
import CodeExecutorApi.Sessions.Effects

/-! Soundness of the session lock. Whoever is inside `locked` works on the registered session,
alone, and nobody removes its directory; whoever was queued when the session was retired never
gets inside. -/
namespace CodeExecutorApi

namespace Manager
variable {D A : Type}

/-- Task `t` being inside `locked`, the session `s` is its own. -/
structure LockSound (m : Manager D A) (t : TaskId) (s : Ref) : Prop where
  registered : m.get (m.heap s).id = some s
  alone : ∀ t' ≠ t, (m.task t').holds ≠ some s
  unremoved : ∀ t' ≠ t, (m.task t').removing ≠ some s
  unabandoned : s ∉ m.abandoned

/-- No quota setup fails while a client is inside `locked` of the session being made. Until
`create` returns nobody knows its id. -/
def undoesUnlocked (m : Manager D A) : Event D A → Bool
  | .resume t sig => match m.task t with
    | .applyQuota _ s => sig == .ok || match m.owner s with
      | some t' => match m.task t' with
        | .body _ _ | .remove _ _ => false
        | _ => true
      | none => true
    | _ => true
  | _ => true

def Inside (m : Manager D A) (t : TaskId) : Prop :=
  ∀ s, (m.task t).inside = some s → m.registered s = true

section Inside
variable {fs : Storage D A} {cfg : Config} {m m' : Manager D A} {t : TaskId} {u : Use} {s : Ref}

theorem Settles.inside_registered {actor : Option TaskId} (h : Settles actor m m')
    (ha : actor = some t) : Inside m' t := by
  intro s hs
  rw [h.frame.registered]
  cases h with
  | untasked => cases ha
  | outside _ _ pc =>
    cases ha
    rw [pc] at hs
    cases hs
  | inside _ hr _ _ pc =>
    cases ha
    rw [pc,Use.started_inside,Option.some.injEq] at hs
    rwa [← hs]

/-- A session somebody is inside of is unregistered only by that task itself. -/
theorem Effect.keeps_registered {e : Event D A} (h : Coherent cfg m) (hg : m.undoesUnlocked e = true)
    (effect : Effect fs cfg m e m') (ht : (m.task t).inside = some s) (he : e.task ≠ some t)
    (hs : m.registered s = true) : m'.registered s = true := by
  have hown : m.owner s = some t := (h.locks s t).mpr (Pc.holds_of_inside ht)
  cases effect with
  | none | tick | dir | abandonedEnd | abandon | mkdtemp => exact hs
  | made _ allocated => exact (made_registered h.registry allocated _ s).mpr (.inl hs)
  | plain => exact (plain_registered fs h.registry s).mpr (.inl hs)
  | @undo t' k r sig pc hsig =>
    rw [releaseProjectId_registered,h.registry.pop_registered]
    refine ⟨hs,?_⟩
    rintro rfl
    rw [undoesUnlocked,pc] at hg
    simp only [hown] at hg
    cases hpc : m.task t <;> rw [hpc] at ht hg <;> cases ht
    all_goals simp [hsig] at hg
  | @removed t' r sig pc =>
    obtain ⟨free,dir,abandoned,hr⟩ := afterRemoval_frame m r sig
    rw [hr]
    refine (h.registry.pop_registered r s).mpr ⟨hs,?_⟩
    rintro rfl
    have hholds : (m.task t').holds = some s := by
      cases hpc : m.task t' <;> rw [hpc] at pc <;> cases pc <;> rfl
    rw [(h.locks s t').mpr hholds] at hown
    exact he hown

theorem Inside.step {e : Event D A} (hc : Coherent cfg m) (h : ∀ t, Inside m t)
    (hg : m.undoesUnlocked e = true) (hstep : m.step fs cfg e = some m') : ∀ t, Inside m' t := by
  intro t
  have steps := step_cases hc.registry hstep
  obtain ⟨m₁,effect,settles⟩ := steps.effect hc.registry
  by_cases ht : e.task = some t
  · exact settles.inside_registered ht
  · intro s he
    rw [steps.others hc.registry ht] at he
    rw [settles.frame.registered]
    exact effect.keeps_registered hc hg he ht (h t s he)

/-- Being inside on a registered session rules out every other holder and remover. -/
theorem Inside.lockSound (hc : Coherent cfg m) (h : Inside m t)
    (ht : (m.task t).inside = some s) :    LockSound m t s := by
  have hreg := h s ht
  have hown : m.owner s = some t := (hc.locks s t).mpr (Pc.holds_of_inside ht)
  have halone : ∀ t' ≠ t, (m.task t').holds ≠ some s := by
    intro t' hne hholds
    rw [(hc.locks s t').mpr hholds] at hown
    exact hne (Option.some.inj hown)
  refine ⟨by simpa [Manager.registered] using hreg,halone,?_,?_⟩
  · intro t' hne hrem
    cases hpc : m.task t' <;> rw [hpc] at hrem <;> cases hrem
    · rw [(hc.sound t').undone s hpc] at hreg
      cases hreg
    all_goals exact halone t' hne (by rw [hpc]; rfl)
  · intro hab
    rw [(hc.abandoned s hab).2] at hreg
    cases hreg

end Inside

/-- What can become of a task queued on the lock of a retired session. -/
def TurnedAway (t : TaskId) (u : Use) (s : Ref) (h : List (Manager D A × Event D A))
    (m : Manager D A) : Prop :=
  m.task t = .acquire u s ∨ ∃ c how, m.task t = .done c how ∧
    (how = .sessionNotFound ∨
      how = .sessionLockTimeout ∧ (∃ p ∈ h, p.2 = .resume t .timeout) ∨
      how = .cancelled ∧ ∃ p ∈ h, p.2 = .resume t .cancelled)

section Retired
variable {fs : Storage D A} {cfg : Config} {m m' : Manager D A} {t : TaskId} {u : Use} {s : Ref}

theorem Leaves.turned_away {how : Ending} (hu : ∀ r, u = .execute r → m.registered r = false)
    (leaves : Leaves m t u how m') : ∃ c, m'.task t = .done c how := by
  cases leaves with
  | ends => exact ⟨_,by rw [finish,setPc_task,if_pos rfl]⟩
  | gone => exact ⟨_,by rw [finish,setPc_task,if_pos rfl]⟩
  | cleans he hs =>
    rw [hu _ he] at hs
    cases hs

theorem Steps.done_stays {e : Event D A} (h : Registry cfg m) (steps : Steps fs cfg m e m') {c : Option Ref}
    {how : Ending} (ht : m.task t = .done c how) : m'.task t = .done c how := by
  by_cases he : e.task = some t
  · obtain ⟨sig,rfl,resumes⟩ := steps.resumes he (by simp [ht])
    cases resumes <;> simp_all
  · rw [steps.others h he,ht]

/-- The next step of a task queued on a retired session turns it away. -/
theorem Resumes.turned_away {sig : Signal} (hc : Coherent cfg m) (hpc : m.task t = .acquire u s)
    (hs : m.registered s = false) (resumes : Resumes fs cfg m t sig m') :
    ∃ c how, m'.task t = .done c how ∧ (how = .sessionNotFound ∨
      how = .sessionLockTimeout ∧ sig = .timeout ∨ how = .cancelled ∧ sig = .cancelled) := by
  have hsound := hc.sound t
  rw [hpc] at hsound
  have hexec (r : Ref) (hr : u = .execute r) : m.registered r = false := by
    rw [hsound.created u s r rfl rfl (by rw [hr]; rfl)]
    exact hs
  cases resumes with
  | @retired u' s' _ pc _ _ leaves =>
    cases hpc.symm.trans pc
    obtain ⟨c,hd⟩ := leaves.turned_away fun r hr => by simpa using hexec r hr
    exact ⟨c,_,hd,.inl rfl⟩
  | @waitedTooLong u' s' _ pc leaves =>
    cases hpc.symm.trans pc
    obtain ⟨c,hd⟩ := leaves.turned_away fun r hr => by simpa using hexec r hr
    exact ⟨c,_,hd,.inr (.inl ⟨rfl,rfl⟩)⟩
  | @waitCancelled u' s' _ pc leaves =>
    cases hpc.symm.trans pc
    obtain ⟨c,hd⟩ := leaves.turned_away fun r hr => by simpa using hexec r hr
    exact ⟨c,_,hd,.inr (.inr ⟨rfl,rfl⟩)⟩
  | entered pc _ hr =>
    cases hpc.symm.trans pc
    rw [hs] at hr
    cases hr
  | _ => simp_all

theorem TurnedAway.cons {h : List (Manager D A × Event D A)} (ht : TurnedAway t u s h m)
    (p : Manager D A × Event D A) : TurnedAway t u s (p::h) m := by
  refine ht.imp_right ?_
  rintro ⟨c,how,hd,hw⟩
  refine ⟨c,how,hd,hw.imp_right (Or.imp ?_ ?_)⟩
  all_goals exact fun ⟨he,q,hq,hqe⟩ => ⟨he,q,List.mem_cons_of_mem _ hq,hqe⟩

/-- Whatever runs on, a request queued on a retired session stays out. -/
theorem turnedAway_of_run (hc : Coherent cfg m) (hpc : m.task t = .acquire u s)
    (hs : m.registered s = false) {h : List (Manager D A × Event D A)}
    (run : Machine.Run (step fs cfg) m h m') : TurnedAway t u s h m' := by
  have hlt := (hc.sound t).session_lt s (by rw [hpc]; rfl)
  have hall : Coherent cfg m' ∧ (s < m'.next ∧ m'.registered s = false) ∧ TurnedAway t u s h m' := by
    induction run with
    | start => exact ⟨hc,⟨hlt,hs⟩,.inl hpc⟩
    | @next h m₁ e m₂ run taken ih =>
      obtain ⟨hc₁,⟨hlt₁,hs₁⟩,haway⟩ := ih
      have steps := step_cases hc₁.registry taken
      have hf := steps.forward hc₁.registry
      refine ⟨hc₁.step taken,⟨Nat.lt_of_lt_of_le hlt₁ hf.1,?_⟩,?_⟩
      · rw [Bool.eq_false_iff] at hs₁ ⊢
        exact fun hr => hs₁ (hf.2 s hlt₁ hr)
      · by_cases he : e.task = some t
        · rcases haway with hpc₁ | ⟨c,how,hd,hw⟩
          · obtain ⟨sig,rfl,resumes⟩ := steps.resumes he (by simp [hpc₁])
            obtain ⟨c,how,hd,hw⟩ := resumes.turned_away hc₁ hpc₁ hs₁
            refine .inr ⟨c,how,hd,hw.imp_right (Or.imp ?_ ?_)⟩
            all_goals exact fun ⟨hh,hsig⟩ => ⟨hh,_,List.mem_cons_self,by rw [hsig]⟩
          · have haway' : TurnedAway t u s h m₂ := .inr ⟨c,how,steps.done_stays hc₁.registry hd,hw⟩
            exact haway'.cons _
        · rw [TurnedAway,← steps.others hc₁.registry he] at haway
          exact TurnedAway.cons haway _
  exact hall.2.2

end Retired

/-- The lock is sound in every reachable state, and it keeps a retired session closed. -/
theorem locked_sound {fs : Storage D A} {cfg : Config} {m : Manager D A}
    {h : List (Manager D A × Event D A)} (run : Machine.Run (step fs cfg) (init cfg) h m)
    (hg : Machine.Guarded (fun m e => m.undoesUnlocked e) h) :
    (∀ t s, (m.task t).inside = some s → LockSound m t s) ∧
      ∀ t u s, m.task t = .acquire u s → m.registered s = false →
        ∀ h' m', Machine.Run (step fs cfg) m h' m' → TurnedAway t u s h' m' := by
  have hc := coherent_of_run run
  have hin : ∀ t, Inside m t := by
    have hboth : Coherent cfg m ∧ ∀ t, Inside m t := by
      refine run.invariant (I := fun m => Coherent cfg m ∧ ∀ t, Inside m t)
        ⟨Coherent.init cfg,?_⟩ ?_ hg
      · intro t s he
        cases he
      · exact fun m e m' ⟨hc,hi⟩ hge hstep => ⟨hc.step hstep,Inside.step hc hi hge hstep⟩
    exact hboth.2
  exact ⟨fun t s ht => (hin t).lockSound hc ht,
    fun t u s hpc hs h' m' run' => turnedAway_of_run hc hpc hs run'⟩

/-- A request inside one session, and one queued on a session that was deleted meanwhile. -/
theorem locked_sound_delete : ∃ h m,
    Machine.Run (step Storage.log Config.tight) (init Config.tight) h m ∧ LockSound m 4 1 ∧
      ∀ h' m', Machine.Run (step Storage.log Config.tight) m h' m' →
        TurnedAway 2 .request 0 h' m' := by
  have hrun : ∃ h m, Machine.replay (step Storage.log Config.tight) [] (init Config.tight)
      [.create 0 .create true,.resume 0 .ok,.delete 1 0,.request 2 0,.resume 1 .ok,
        .create 3 .create true,.resume 3 .ok,.request 4 1] = some (h,m) ∧
          Machine.Guarded (fun m e => m.undoesUnlocked e) h ∧
            m.task 4 = .body .request 1 ∧ m.task 2 = .acquire .request 0 ∧
              m.registered 0 = false :=
    ⟨_,_,rfl,by decide,rfl,rfl,rfl⟩
  obtain ⟨h,m,hr,hg,hin,hpc,hs⟩ := hrun
  obtain ⟨hsound,haway⟩ := locked_sound (Machine.replay_run hr) hg
  exact ⟨h,m,Machine.replay_run hr,hsound 4 1 (by rw [hin]; rfl),haway 2 .request 0 hpc hs⟩

/-- The sweep has unregistered the session but not yet given the lock back, and the wait of a
queued request runs out: the request is told that the session is busy. -/
theorem queued_request_times_out : ¬ ∀ h m,
    Machine.Run (step Storage.log Config.tight) (init Config.tight) h m →
      ∀ t u s, m.task t = .acquire u s → m.registered s = false →
        ∀ h' m', Machine.Run (step Storage.log Config.tight) m h' m' →
          m'.task t = .acquire u s ∨ ∃ c, m'.task t = .done c .sessionNotFound := by
  have hrun : ∃ h m m', Machine.replay (step Storage.log Config.tight) [] (init Config.tight)
      [.create 0 .create true,.resume 0 .ok,.tick 2,.sweep 1,.request 2 0,.resume 1 .ok] =
        some (h,m) ∧ m.task 2 = .acquire .request 0 ∧ m.registered 0 = false ∧
          step Storage.log Config.tight m (.resume 2 .timeout) = some m' ∧
            m'.task 2 = .done none .sessionLockTimeout :=
    ⟨_,_,_,rfl,rfl,rfl,rfl,rfl⟩
  obtain ⟨h,m,m',hr,hpc,hs,hstep,hd⟩ := hrun
  intro hall
  rcases hall h m (Machine.replay_run hr) 2 _ 0 hpc hs _ m' (.next .start hstep) with he | ⟨c,he⟩
  · cases hd.symm.trans he
  · cases hd.symm.trans he

end Manager
end CodeExecutorApi
