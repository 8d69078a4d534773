import Mathlib.Data.Finset.Card
import Mathlib.Data.List.Sublists
import CodeExecutorApi.Sessions.Coherence
import CodeExecutorApi.Sessions.Effects

/-! The queue of each session lock: who waits in it, and in which order they get their turn. -/
namespace CodeExecutorApi

/-- What one task does to a lock between two awaits. It takes only a lock that is free or whose turn
it is. -/
inductive Lock.Moves (t : TaskId) (l : Lock) : Lock → Prop
  | refl : Moves t l l
  | take {l'} (moves : Moves t l l') (howner : l'.owner = none)
      (hturn : ∀ t', l'.waiters.head? = some t' → t' = t) :
      Moves t l ⟨some t,l'.waiters.erase t⟩
  | unlock {l'} (moves : Moves t l l') : Moves t l {l' with owner := none}
  | enqueue {l'} (moves : Moves t l l') : Moves t l {l' with waiters := l'.waiters ++ [t]}
  | dequeue {l'} (moves : Moves t l l') : Moves t l {l' with waiters := l'.waiters.erase t}

namespace Lock.Moves
variable {t a b : TaskId} {l l' l'' : Lock}

theorem trans (h : Moves t l l') (h' : Moves t l' l'') : Moves t l l'' := by
  induction h' with
  | refl => exact h
  | take _ howner hturn ih => exact ih.take howner hturn
  | unlock _ ih => exact ih.unlock
  | enqueue _ ih => exact ih.enqueue
  | dequeue _ ih => exact ih.dequeue

theorem filter_erase (ts : List TaskId) :
    (ts.erase t).filter (fun t' => t' ≠ t) = ts.filter fun t' => t' ≠ t := by
  induction ts with
  | nil => rfl
  | cons t' ts ih =>
    by_cases h : t' = t
    · subst t'
      simp
    · rw [List.erase_cons_tail (by simpa using h),List.filter_cons,List.filter_cons,ih]

/-- The other waiters stay where they are. -/
theorem others (h : Moves t l l') :
    l'.waiters.filter (fun t' => t' ≠ t) = l.waiters.filter fun t' => t' ≠ t := by
  induction h with
  | refl => rfl
  | take _ _ _ ih | dequeue _ ih => exact (filter_erase _).trans ih
  | unlock _ ih => exact ih
  | enqueue _ ih => simpa using ih

theorem mem_iff (h : Moves t l l') (ha : a ≠ t) : a ∈ l'.waiters ↔ a ∈ l.waiters := by
  have hmem := congrArg (a ∈ ·) h.others
  simpa [ha] using hmem

theorem count_eq (h : Moves t l l') (ha : a ≠ t) : l'.waiters.count a = l.waiters.count a := by
  have hcount := congrArg (List.count a) h.others
  rwa [List.count_filter (by simpa using ha),List.count_filter (by simpa using ha)] at hcount

/-- Two others keep their order. -/
theorem order (h : Moves t l l') (ha : a ≠ t) (hb : b ≠ t) :
    [b,a].Sublist l'.waiters ↔ [b,a].Sublist l.waiters := by
  have hfilter : ([b,a] : List TaskId).filter (fun t' => t' ≠ t) = [b,a] := by simp [ha,hb]
  have hiff (ts : List TaskId) :
      [b,a].Sublist (ts.filter fun t' => t' ≠ t) ↔ [b,a].Sublist ts := by
    constructor
    · exact fun hs => hs.trans List.filter_sublist
    · exact fun hs => hfilter ▸ hs.filter _
  rw [← hiff,h.others,hiff]

/-- Nobody but the task itself comes to own the lock. -/
theorem owner_cases (h : Moves t l l') (hb : l'.owner = some b) : b = t ∨ l.owner = some b := by
  induction h with
  | refl => exact .inr hb
  | take => exact .inl (Option.some.inj hb).symm
  | unlock => cases hb
  | enqueue _ ih | dequeue _ ih => exact ih hb

/-- A task that is not in front of a waiter stays behind it, and does not get the lock. -/
theorem behind (h : Moves t l l') (hne : a ≠ t) (ha : a ∈ l.waiters)
    (hb : ¬[t,a].Sublist l.waiters) :
    ¬[t,a].Sublist l'.waiters ∧ (l'.owner = some t → l.owner = some t) := by
  induction h with
  | refl => exact ⟨hb,id⟩
  | @take l' moves howner hturn ih =>
    -- the waiter is in front, so it is not the turn of the task
    have hmem := (moves.mem_iff hne).mpr ha
    cases hw : l'.waiters with
    | nil =>
      rw [hw] at hmem
      cases hmem
    | cons t' ts =>
      obtain rfl : t' = t := hturn t' (by rw [hw]; rfl)
      rw [hw] at hmem
      have hlater : a ∈ ts := (List.mem_cons.mp hmem).resolve_left hne
      refine absurd ?_ ih.1
      rw [hw]
      exact (List.singleton_sublist.mpr hlater).cons_cons t'
  | unlock _ ih => exact ⟨ih.1,fun h => by cases h⟩
  | enqueue _ ih =>
    refine ⟨fun hs => ?_,ih.2⟩
    obtain ⟨p,q,hpq,hp,hq⟩ := List.sublist_append_iff.mp hs
    rcases List.sublist_singleton.mp hq with rfl | rfl
    · rw [List.append_nil] at hpq
      exact ih.1 (hpq ▸ hp)
    · have hlast := congrArg List.getLast? hpq
      simp at hlast
      exact hne hlast
  | dequeue _ ih => exact ⟨fun hs => ih.1 (hs.trans List.erase_sublist),ih.2⟩

end Lock.Moves

/-- The session in whose queue a suspended task waits. -/
def Pc.waits {A : Type} : Pc A → Option Ref
  | .acquire _ s | .tryAcquire _ s _ => some s
  | _ => none

@[simp] theorem Use.started_waits {A : Type} (u : Use) (s : Ref) :
    (u.started s : Pc A).waits = none := by cases u <;> rfl

theorem Pc.session_of_waits {A : Type} {pc : Pc A} {s : Ref} (h : pc.waits = some s) :
    pc.session = some s := by
  cases pc <;> first | exact h | cases h

namespace Manager
variable {D A : Type}

def queue (m : Manager D A) (s : Ref) : List TaskId := (m.heap s).lock.waiters

attribute [grind =] queue

/-- While task `t` runs it stands in the queue of `l`, if any. -/
def Stands (m : Manager D A) (t : TaskId) (l : Option Ref) : Prop :=
  ∀ s, (m.queue s).count t = if l = some s then 1 else 0

/-- What task `t` did to the locks from `m` to `m'`, where it is suspended again. -/
structure Acts (t : TaskId) (m m' : Manager D A) : Prop where
  locks : ∀ s, Lock.Moves t (m.heap s).lock (m'.heap s).lock
  stands : Stands m' t (m'.task t).waits

/-- Every task stands in the queue it waits in, once, and in no other. -/
def QueueSound (m : Manager D A) : Prop := ∀ t, Stands m t (m.task t).waits

section Actions
variable {fs : Storage D A} {cfg : Config} {m m₁ m' : Manager D A} {t : TaskId} {u : Use} {s : Ref}
  {how : Ending}

theorem Acts.after (h : Acts t m₁ m')
    (hlocks : ∀ s, Lock.Moves t (m.heap s).lock (m₁.heap s).lock) : Acts t m m' :=
  ⟨fun s => (hlocks s).trans (h.locks s),h.stands⟩

theorem acts_setPc (h : Stands m t none) (hheap : m₁.heap = m.heap) {pc : Pc A}
    (hpc : pc.waits = none) : Acts t m (m₁.setPc t pc) where
  locks s := by
    change Lock.Moves t _ (m₁.heap s).lock
    rw [hheap]
    exact .refl
  stands := by
    rw [setPc_task,if_pos rfl,hpc]
    intro s
    change ((m₁.heap s).lock.waiters).count t = _
    rw [hheap]
    exact h s

theorem locks_setLock (m : Manager D A) (s : Ref) {l : Lock}
    (h : Lock.Moves t (m.heap s).lock l) (r : Ref) :
    Lock.Moves t (m.heap r).lock ((m.setLock s l).heap r).lock := by
  rw [setLock,setSession_heap]
  split_ifs with hr
  · exact hr ▸ h
  · exact .refl

theorem queue_setLock (m : Manager D A) (s r : Ref) (l : Lock) :
    (m.setLock s l).queue r = if r = s then l.waiters else m.queue r := by
  unfold queue
  rw [setLock,setSession_heap]
  split_ifs <;> rfl

/-- Leaving the queue it stands in, or none. -/
theorem Stands.erase {o : Option Ref} (h : Stands m t o) (ho : ∀ r, o = some r → r = s) {l : Lock}
    (hl : l.waiters = (m.queue s).erase t) : Stands (m.setLock s l) t none := by
  intro r
  have hr := h r
  rw [queue_setLock,if_neg (by simp : ¬(none : Option Ref) = some r)]
  by_cases hrs : r = s
  · subst r
    rw [if_pos rfl,hl,List.count_erase_self,hr]
    split_ifs <;> rfl
  · rw [if_neg hrs,hr,if_neg fun he => hrs (ho r he)]

theorem Stands.dequeue (h : Stands m t (some s)) : Stands (m.dequeue t s) t none :=
  h.erase (fun _ hr => (Option.some.inj hr).symm) rfl

theorem Stands.take {o : Option Ref} (h : Stands m t o) (ho : ∀ r, o = some r → r = s) :
    Stands (m.take t s) t none := h.erase ho rfl

theorem Stands.enqueue (h : Stands m t none) : Stands (m.enqueue t s) t (some s) := by
  intro r
  have hr := h r
  rw [Manager.enqueue,queue_setLock]
  split_ifs with hrs hsr hsr
  · change (m.queue s ++ [t]).count t = 1
    rw [List.count_append,h s]
    simp
  · exact absurd (congrArg some hrs.symm) hsr
  · exact absurd (Option.some.inj hsr).symm hrs
  · exact hr

theorem Stands.congr {l : Option Ref} (h : Stands m t l) (hq : ∀ s, m'.queue s = m.queue s) :
    Stands m' t l := fun s => hq s ▸ h s

theorem Stands.unlock {l : Option Ref} (h : Stands m t l) : Stands (m.unlock s) t l := by
  refine h.congr fun r => ?_
  rw [Manager.unlock,queue_setLock]
  split_ifs with hr
  · exact hr ▸ rfl
  · rfl

theorem head_of_granted (h : m.granted t s = true) :
    (m.heap s).lock.owner = none ∧ (m.queue s).head? = some t := by
  simpa [granted,queue] using h

theorem nil_of_free (h : (m.heap s).lock.free = true) : m.queue s = [] := by
  simp only [Lock.free,Bool.and_eq_true,List.isEmpty_iff] at h
  exact h.2

/-- A task takes a lock that is free or whose turn it is. -/
theorem locks_take (howner : (m.heap s).lock.owner = none)
    (hturn : ∀ t', (m.queue s).head? = some t' → t' = t) (r : Ref) :
    Lock.Moves t (m.heap r).lock ((m.take t s).heap r).lock :=
  locks_setLock m s (Lock.Moves.refl.take howner hturn) r

theorem locks_touch (r : Ref) : ((m.touch s).heap r).lock = (m.heap r).lock := by
  rw [touch,setSession_heap]
  split_ifs with hr
  · exact hr ▸ rfl
  · rfl

theorem locks_unlock (r : Ref) : Lock.Moves t (m.heap r).lock ((m.unlock s).heap r).lock :=
  locks_setLock m s Lock.Moves.refl.unlock r

theorem locks_dequeue (r : Ref) : Lock.Moves t (m.heap r).lock ((m.dequeue t s).heap r).lock :=
  locks_setLock m s Lock.Moves.refl.dequeue r

/-- The block begins once the lock is taken. -/
theorem acts_enter {o : Option Ref} (h : Stands m t o) (ho : ∀ r, o = some r → r = s)
    (howner : (m.heap s).lock.owner = none)
    (hturn : ∀ t', (m.queue s).head? = some t' → t' = t) (u : Use) :
    Acts t m (((m.take t s).touch s).setPc t (u.started s)) := by
  have htaken : Stands (m.take t s) t none := h.take ho
  have hacts : Acts t ((m.take t s).touch s) (((m.take t s).touch s).setPc t (u.started s)) := by
    refine acts_setPc (htaken.congr fun r => ?_) rfl (by simp)
    exact congrArg Lock.waiters (locks_touch r)
  refine hacts.after fun r => ?_
  rw [locks_touch]
  exact locks_take howner hturn r

theorem Locks.acts (h : Stands m t none) (locks : Locks m t u s m') : Acts t m m' := by
  cases locks with
  | waits =>
    refine ⟨locks_setLock m s Lock.Moves.refl.enqueue,?_⟩
    rw [setPc_task,if_pos rfl]
    exact h.enqueue
  | enters free =>
    exact acts_enter h (by simp) (owner_of_free m s free) (by simp [nil_of_free free]) u

theorem Leaves.acts (h : Stands m t none) (leaves : Leaves m t u how m') : Acts t m m' := by
  cases leaves with
  | ends | gone => exact acts_setPc h rfl rfl
  | cleans _ _ locks => exact locks.acts h

theorem Enters.acts (h : Stands m t none) {id : SessionId} (enters : Enters m t u id m') :
    Acts t m m' := by
  cases enters with
  | missing _ leaves => exact leaves.acts h
  | locks _ locks => exact locks.acts h

theorem Sweeps.acts (h : Stands m t none) {now : ℕ} {left : List Ref}
    (sweeps : Sweeps cfg m t now left m') : Acts t m m' := by
  cases sweeps with
  | passed => exact acts_setPc h rfl rfl
  | @waits s =>
    refine ⟨locks_setLock m s Lock.Moves.refl.enqueue,?_⟩
    rw [setPc_task,if_pos rfl]
    exact h.enqueue
  | @deletes s _ _ free =>
    refine (acts_setPc (h.take (by simp)) rfl rfl).after fun r => ?_
    exact locks_take (owner_of_free m s free) (by simp [nil_of_free free]) r

theorem Created.acts (h : Stands m t none) {k : Creator A} (created : Created m t s k m') :
    Acts t m m' := by
  cases created with
  | handedOut | seeds => exact acts_setPc h rfl rfl
  | executes enters => exact enters.acts h

/-- A session object that is made now has a new lock, as every object not yet made. -/
theorem locks_register (hfresh : (m.heap m.next).lock = Lock.new) (hheap : m₁.heap = m.heap)
    {x : Session} (hx : x.lock = Lock.new) (r : Ref) :
    ((m₁.register m.next x).heap r).lock = (m.heap r).lock := by
  rw [register]
  change ((m₁.setSession m.next x).heap r).lock = _
  rw [setSession_heap]
  split_ifs with hr
  · rw [hx,hr,hfresh]
  · rw [hheap]

theorem Acts.of_locks (h : Acts t m₁ m') (hlock : ∀ s, (m₁.heap s).lock = (m.heap s).lock) :
    Acts t m m' :=
  h.after fun s => hlock s ▸ .refl

theorem Stands.of_locks {l : Option Ref} (h : Stands m t l)
    (hlock : ∀ s, (m₁.heap s).lock = (m.heap s).lock) : Stands m₁ t l :=
  h.congr fun s => congrArg Lock.waiters (hlock s)

theorem Creates.acts (h : Stands m t none) (hfresh : (m.heap m.next).lock = Lock.new)
    {k : Creator A} (creates : Creates fs cfg m t k m') : Acts t m m' := by
  cases creates with
  | refused | exhausted => apply acts_setPc h <;> rfl
  | @quota p m₁ _ allocated =>
    have hheap : m₁.heap = m.heap := by
      obtain ⟨free,nextId,rfl⟩ := allocateProjectId_frame allocated
      rfl
    have hlock := locks_register hfresh hheap (x := m.newSession cfg (some p)) rfl
    exact (acts_setPc (h.of_locks hlock) rfl rfl).of_locks hlock
  | plain _ created =>
    have hlock := locks_register hfresh (rfl : (m.mkdtemp fs).heap = m.heap)
      (x := m.newSession cfg none) rfl
    exact (created.acts (h.of_locks hlock)).of_locks hlock

/-- No task works on an object that is not made yet. -/
theorem Coherent.fresh_lock (hc : Coherent cfg m) (hq : QueueSound m) :
    (m.heap m.next).lock = Lock.new := by
  have howner : (m.heap m.next).lock.owner = none := by
    cases ho : (m.heap m.next).lock.owner with
    | none => rfl
    | some t =>
      have hholds := (hc.locks m.next t).mp ho
      have hlt := (hc.sound t).session_lt _ (Pc.session_of_holds hholds)
      exact absurd hlt (Nat.lt_irrefl _)
  have hwaiters : (m.heap m.next).lock.waiters = [] := by
    refine List.eq_nil_iff_forall_not_mem.mpr fun t ht => ?_
    have hcount := hq t m.next
    have hpos := List.count_pos_iff.mpr ht
    split_ifs at hcount with hw
    · have hlt := (hc.sound t).session_lt _ (Pc.session_of_waits hw)
      exact absurd hlt (Nat.lt_irrefl _)
    · exact absurd hcount hpos.ne'
  cases hl : (m.heap m.next).lock with
  | mk owner waiters =>
    rw [hl] at howner hwaiters
    cases howner
    cases hwaiters
    rfl

theorem afterRemoval_heap (m : Manager D A) (s : Ref) (sig : Signal) :
    (m.afterRemoval s sig).heap = m.heap := by
  obtain ⟨free,dir,abandoned,he⟩ := afterRemoval_frame m s sig
  rw [he]
  rfl

theorem Resumes.acts (h : Stands m t (m.task t).waits) {sig : Signal}
    (resumes : Resumes fs cfg m t sig m') : Acts t m m' := by
  have hown {s r : Ref} (hr : some s = some r) : r = s := (Option.some.inj hr).symm
  have hturn {s : Ref} (hgranted : m.granted t s = true) (t' : TaskId)
      (ht' : (m.queue s).head? = some t') : t' = t :=
    Option.some.inj (ht'.symm.trans (head_of_granted hgranted).2)
  cases resumes with
  | quotaSet pc created =>
    rw [pc] at h
    exact created.acts h
  | quotaFailed pc _ =>
    rw [pc] at h
    refine acts_setPc h ?_ rfl
    rw [releaseProjectId_eq]
    rfl
  | undone pc | undoAbandoned pc | undoFailed pc | seedCancelled pc | seeded pc | seedPart pc
  | seedFailed pc | shielded pc =>
    rw [pc] at h
    apply acts_setPc h <;> rfl
  | seedCleans pc _ _ locks =>
    rw [pc] at h
    exact locks.acts h
  | entered pc granted hs =>
    rw [pc] at h
    exact acts_enter h (fun _ => hown) (head_of_granted granted).1 (hturn granted) _
  | retired pc granted hs leaves =>
    rw [pc] at h
    refine (leaves.acts (h.take fun _ => hown).unlock).after fun r => ?_
    exact (locks_take (head_of_granted granted).1 (hturn granted) r).trans (locks_unlock r)
  | waitedTooLong pc leaves | waitCancelled pc leaves =>
    rw [pc] at h
    exact (leaves.acts h.dequeue).after locks_dequeue
  | left pc leaves =>
    rw [pc] at h
    exact (leaves.acts h.unlock).after locks_unlock
  | @removed u s sig m' pc leaves =>
    rw [pc] at h
    have hheap := afterRemoval_heap m s sig
    have hremoved : Stands (m.afterRemoval s sig) t none := h.of_locks fun _ => by rw [hheap]
    refine (leaves.acts hremoved.unlock).after fun r => ?_
    have hmoves := locks_unlock (m := m.afterRemoval s sig) (t := t) (s := s) r
    rwa [hheap] at hmoves
  | @swept now s rest pc granted _ =>
    rw [pc] at h
    refine (acts_setPc (h.take fun _ => hown) rfl rfl).after fun r => ?_
    exact locks_take (head_of_granted granted).1 (hturn granted) r
  | skipped pc granted _ sweeps =>
    rw [pc] at h
    refine (sweeps.acts (h.take fun _ => hown).unlock).after fun r => ?_
    exact (locks_take (head_of_granted granted).1 (hturn granted) r).trans (locks_unlock r)
  | passed pc sweeps =>
    rw [pc] at h
    exact (sweeps.acts h.dequeue).after locks_dequeue
  | sweepCancelled pc =>
    rw [pc] at h
    exact (acts_setPc h.dequeue rfl rfl).after locks_dequeue
  | @deleted cancelled now s rest sig pc _ =>
    rw [pc] at h
    exact acts_setPc h (afterRemoval_heap m s sig) rfl
  | sweepEnded pc _ =>
    rw [pc] at h
    exact (acts_setPc h.unlock rfl rfl).after locks_unlock
  | sweepWent pc _ sweeps =>
    rw [pc] at h
    exact (sweeps.acts h.unlock).after locks_unlock

/-- Each step of a task acts on the locks as that task. Any other step leaves them alone. -/
theorem Steps.acts (hc : Coherent cfg m) (hq : QueueSound m) {e : Event D A}
    (steps : Steps fs cfg m e m') :
    (∃ t, e.task = some t ∧ Acts t m m') ∨ e.task = none ∧ m'.heap = m.heap := by
  have hidle {t : TaskId} (idle : m.task t = .idle) : Stands m t none := by
    have h := hq t
    rwa [idle] at h
  cases steps with
  | tick | write | erode | abandonedErode | abandonedEnd => exact .inr ⟨rfl,rfl⟩
  | create idle creates => exact .inl ⟨_,rfl,creates.acts (hidle idle) (hc.fresh_lock hq)⟩
  | request idle enters | delete idle enters => exact .inl ⟨_,rfl,enters.acts (hidle idle)⟩
  | sweep idle sweeps => exact .inl ⟨_,rfl,sweeps.acts (hidle idle)⟩
  | resume resumes => exact .inl ⟨_,rfl,resumes.acts (hq _)⟩

theorem QueueSound.step (hc : Coherent cfg m) (hq : QueueSound m) {e : Event D A}
    (hstep : m.step fs cfg e = some m') : QueueSound m' := by
  have steps := step_cases hc.registry hstep
  intro t'
  rcases steps.acts hc hq with ⟨t,ht,hacts⟩ | ⟨ht,hheap⟩
  · by_cases hne : t' = t
    · exact hne ▸ hacts.stands
    · rw [steps.others hc.registry (by rw [ht]; exact fun h => hne (Option.some.inj h).symm)]
      exact fun s => ((hacts.locks s).count_eq hne).trans (hq t' s)
  · rw [steps.others hc.registry (by simp [ht])]
    exact (hq t').of_locks fun s => by rw [hheap]

theorem queueSound_init (cfg : Config) : QueueSound (init cfg : Manager D A) := fun _ _ => rfl

theorem queueSound_of_run {h : List (Manager D A × Event D A)}
    (run : Machine.Run (step fs cfg) (init cfg) h m) : QueueSound m := by
  induction run with
  | start => exact queueSound_init cfg
  | next run taken ih => exact ih.step (coherent_of_run run) taken

theorem QueueSound.mem_iff (hq : QueueSound m) : t ∈ m.queue s ↔ (m.task t).waits = some s := by
  rw [← List.count_pos_iff,hq t s]
  split_ifs with h <;> simp [h]

end Actions

section Order
variable {fs : Storage D A} {cfg : Config} {m m' : Manager D A} {a b t : TaskId} {s : Ref}
  {h h' : List (Manager D A × Event D A)}

/-- A step of somebody else leaves a waiter in its queue, and a task that was not before it in the
queue does not get the lock. -/
theorem behind_step (hc : Coherent cfg m) (hq : QueueSound m) {e : Event D A}
    (hstep : m.step fs cfg e = some m') (he : e.task ≠ some a) (hab : a ≠ b)
    (hwaits : (m.task a).waits = some s) (hbehind : ¬[b,a].Sublist (m.queue s))
    (howner : m.owner s ≠ some b) :
    (m'.task a).waits = some s ∧ ¬[b,a].Sublist (m'.queue s) ∧ m'.owner s ≠ some b := by
  have steps := step_cases hc.registry hstep
  rw [steps.others hc.registry he]
  refine ⟨hwaits,?_⟩
  rcases steps.acts hc hq with ⟨t,ht,hacts⟩ | ⟨ht,hheap⟩
  · have hat : a ≠ t := fun hat => he (hat ▸ ht)
    have hmem : a ∈ m.queue s := hq.mem_iff.mpr hwaits
    by_cases hbt : b = t
    · subst t
      obtain ⟨hstill,hown⟩ := (hacts.locks s).behind hab hmem hbehind
      exact ⟨hstill,fun hb => howner (hown hb)⟩
    · refine ⟨fun hs => hbehind (((hacts.locks s).order hat hbt).mp hs),fun hb => ?_⟩
      exact ((hacts.locks s).owner_cases hb).elim hbt howner
  · unfold queue owner
    rw [hheap]
    exact ⟨hbehind,howner⟩

/-- The lock of a session is given in the order in which it was asked for: as long as a waiter is
not resumed, no task gets the lock that was not before it in the queue. -/
theorem no_overtaking (run : Machine.Run (step fs cfg) (init cfg) h m) (hab : a ≠ b)
    (hwaits : (m.task a).waits = some s) (hbehind : ¬[b,a].Sublist (m.queue s))
    (howner : m.owner s ≠ some b) (run' : Machine.Run (step fs cfg) m h' m')
    (hrest : ∀ p ∈ h', p.2.task ≠ some a) :
    (m'.task a).waits = some s ∧ m'.owner s ≠ some b := by
  have hall : (m'.task a).waits = some s ∧ ¬[b,a].Sublist (m'.queue s) ∧ m'.owner s ≠ some b := by
    induction run' with
    | start => exact ⟨hwaits,hbehind,howner⟩
    | next run' taken ih =>
      obtain ⟨he,hrest⟩ := List.forall_mem_cons.mp hrest
      obtain ⟨hw,hb,ho⟩ := ih hrest
      have hrun := run.trans run'
      exact behind_step (coherent_of_run hrun) (queueSound_of_run hrun) taken he hab hw hb ho
  exact ⟨hall.1,hall.2.2⟩

/-- Of two requests behind a third, the second does not get in before the first. -/
theorem no_overtaking_second : ∃ h m h' m',
    Machine.Run (step Storage.log Config.tight) (init Config.tight) h m ∧
      Machine.Run (step Storage.log Config.tight) m h' m' ∧ m'.owner 0 = none ∧
        (m'.task 2).waits = some 0 ∧ m'.owner 0 ≠ some 3 := by
  have hrun : ∃ h m h' m', Machine.replay (step Storage.log Config.tight) [] (init Config.tight)
      [.create 0 .create true,.resume 0 .ok,.request 1 0,.request 2 0,.request 3 0] = some (h,m) ∧
        Machine.replay (step Storage.log Config.tight) [] m [.resume 1 .ok] = some (h',m') ∧
          (m.task 2).waits = some 0 ∧ ¬[3,2].Sublist (m.queue 0) ∧ m.owner 0 ≠ some 3 ∧
            m'.owner 0 = none ∧ ∀ p ∈ h', p.2.task ≠ some 2 :=
    ⟨_,_,_,_,rfl,rfl,rfl,by decide,by decide,rfl,by decide⟩
  obtain ⟨h,m,h',m',hr,hr',hw,hb,ho,hfree,hrest⟩ := hrun
  obtain ⟨hstill,hnot⟩ := no_overtaking (Machine.replay_run hr) (by decide) hw hb ho
    (Machine.replay_run hr') hrest
  exact ⟨h,m,h',m',Machine.replay_run hr,Machine.replay_run hr',hfree,hstill,hnot⟩

end Order

section Turn
variable {fs : Storage D A} {cfg : Config} {m m₁ m' : Manager D A} {a b t : TaskId} {s : Ref}
  {h : List (Manager D A × Event D A)}

/-- The tasks that stand before a waiter. -/
def ahead (m : Manager D A) (a : TaskId) (s : Ref) : Finset TaskId :=
  (m.queue s).toFinset.filter fun b => [b,a].Sublist (m.queue s)

/-- How often the owner of a lock has to go on until it gives the lock back. -/
def owing (m : Manager D A) (s : Ref) : ℕ :=
  match m.owner s with
  | none => 0
  | some t =>
    match m.task t with
    | .deletion _ _ _ _ => 2
    | _ => 1

/-- A bound on the steps of others before it is the turn of a waiter. -/
def due (m : Manager D A) (a : TaskId) (s : Ref) : ℕ := 3*(m.ahead a s).card+m.owing s

theorem mem_ahead : b ∈ m.ahead a s ↔ [b,a].Sublist (m.queue s) := by
  simp only [ahead,Finset.mem_filter,List.mem_toFinset,and_iff_right_iff_imp]
  exact fun h => h.subset List.mem_cons_self

theorem owing_le (m : Manager D A) (s : Ref) : m.owing s ≤ 2 := by
  unfold owing
  split
  · omega
  · split <;> omega

/-- A task that took its turn or gave the lock back is not before a waiter any more. -/
theorem ahead_subset (hne : a ≠ t) (ha : a ∈ m.queue s) (hstands : Stands m₁ t none)
    (hto : Lock.Moves t (m.heap s).lock (m₁.heap s).lock)
    (hon : Lock.Moves t (m₁.heap s).lock (m'.heap s).lock) :
    m'.ahead a s ⊆ (m.ahead a s).erase t := by
  have hout : t ∉ m₁.queue s := List.count_eq_zero.mp (hstands s)
  have hbehind : ¬[t,a].Sublist (m₁.queue s) := fun hs => hout (hs.subset List.mem_cons_self)
  have hthere : a ∈ m₁.queue s := (hto.mem_iff hne).mpr ha
  intro b hb
  rw [mem_ahead] at hb
  have hbt : b ≠ t := by
    rintro rfl
    exact (hon.behind hne hthere hbehind).1 hb
  exact Finset.mem_erase.mpr ⟨hbt,mem_ahead.mpr (((hto.trans hon).order hne hbt).mp hb)⟩

/-- A waiter whose turn it is takes the lock first of all. -/
theorem Resumes.turn (hw : (m.task t).waits = some s) (h : Stands m t (m.task t).waits)
    (resumes : Resumes fs cfg m t .ok m') :
    Lock.Moves t ((m.take t s).heap s).lock (m'.heap s).lock := by
  have htaken (r : Ref) (hr : (m.task t).waits = some r) : Stands (m.take t r) t none :=
    h.take fun r' hr' => Option.some.inj (hr'.symm.trans hr)
  cases resumes with
  | @entered u r pc =>
    rw [pc] at hw
    obtain rfl := Option.some.inj hw
    change Lock.Moves t _ (((m.take t r).touch r).heap r).lock
    rw [locks_touch]
    exact .refl
  | @retired u r m' pc _ _ leaves =>
    have hstands := htaken r (by rw [pc]; rfl)
    rw [pc] at hw
    obtain rfl := Option.some.inj hw
    exact (locks_unlock r).trans ((leaves.acts hstands.unlock).locks r)
  | @swept now r rest pc =>
    rw [pc] at hw
    obtain rfl := Option.some.inj hw
    exact .refl
  | @skipped now r rest m' pc _ _ sweeps =>
    have hstands := htaken r (by rw [pc]; rfl)
    rw [pc] at hw
    obtain rfl := Option.some.inj hw
    exact (locks_unlock r).trans ((sweeps.acts hstands.unlock).locks r)
  | quotaSet pc | undone pc | undoFailed pc | seeded pc | seedPart pc | seedFailed pc
  | seedCleans pc | left pc | removed pc | deleted pc | sweepEnded pc | sweepWent pc =>
    rw [pc] at hw
    cases hw
  | quotaFailed _ hsig => exact absurd rfl hsig

/-- The owner of a lock gives it back when it goes on, but after the removal of a sweep it has to go
on once more. -/
theorem Resumes.givesBack (ho : m.owner s = some t) (hh : (m.task t).holds = some s)
    (h : Stands m t none) (resumes : Resumes fs cfg m t .ok m') :
    Lock.Moves t ((m.unlock s).heap s).lock (m'.heap s).lock ∨
      m'.heap = m.heap ∧ m'.owing s < m.owing s := by
  cases resumes with
  | @left u r sig m' pc leaves =>
    rw [pc] at hh
    obtain rfl := Option.some.inj hh
    exact .inl ((leaves.acts h.unlock).locks r)
  | @removed u r sig m' pc leaves =>
    rw [pc] at hh
    obtain rfl := Option.some.inj hh
    have hheap := afterRemoval_heap m r .ok
    have hremoved : Stands (m.afterRemoval r .ok) t none := h.of_locks fun _ => by rw [hheap]
    have hmoves := (leaves.acts hremoved.unlock).locks r
    simp only [Manager.unlock,setLock,setSession_heap,hheap] at hmoves ⊢
    exact .inl hmoves
  | @sweepEnded cancelled now r rest sig pc =>
    rw [pc] at hh
    obtain rfl := Option.some.inj hh
    exact .inl .refl
  | @sweepWent now r rest sig m' pc _ sweeps =>
    rw [pc] at hh
    obtain rfl := Option.some.inj hh
    exact .inl ((sweeps.acts h.unlock).locks r)
  | @deleted cancelled now r rest sig pc =>
    rw [pc] at hh
    obtain rfl := Option.some.inj hh
    have hheap := afterRemoval_heap m r .ok
    refine .inr ⟨hheap,?_⟩
    have howner :
        ((m.afterRemoval r .ok).setPc t (.deleted cancelled now r rest)).owner r = some t :=
      (congrArg (fun heap => (heap r).lock.owner) hheap).trans ho
    rw [owing,owing,ho,howner]
    simp [setPc_task,pc]
  | quotaSet pc | undone pc | undoFailed pc | seeded pc | seedPart pc | seedFailed pc
  | seedCleans pc | entered pc | retired pc | swept pc | skipped pc =>
    rw [pc] at hh
    cases hh
  | quotaFailed _ hsig => exact absurd rfl hsig

variable (fs) (cfg) in
theorem resume_of_holds (hh : (m.task t).holds = some s) :
    ∃ m', m.step fs cfg (.resume t .ok) = some m' := by
  refine Option.isSome_iff_exists.mp ?_
  cases hpc : m.task t <;> rw [hpc] at hh <;> cases hh
  all_goals simp [step,resume,hpc]
  split_ifs <;> rfl

variable (fs) (cfg) in
theorem resume_of_granted (hw : (m.task t).waits = some s) (hg : m.granted t s = true) :
    ∃ m', m.step fs cfg (.resume t .ok) = some m' := by
  refine Option.isSome_iff_exists.mp ?_
  cases hpc : m.task t <;> rw [hpc] at hw <;> cases hw
  all_goals simp [step,resume,hpc,hg]

variable (fs) in
/-- As long as it is not its turn, one of the others can go on, and the waiter comes nearer. -/
theorem due_step (hc : Coherent cfg m) (hq : QueueSound m) (hw : (m.task a).waits = some s)
    (hg : m.granted a s = false) :
    ∃ t m', t ≠ a ∧ m.step fs cfg (.resume t .ok) = some m' ∧ m'.due a s < m.due a s := by
  have ha : a ∈ m.queue s := hq.mem_iff.mpr hw
  cases ho : m.owner s with
  | none =>
    obtain ⟨t,ts,hqueue⟩ := List.exists_cons_of_ne_nil (List.ne_nil_of_mem ha)
    have hgranted : m.granted t s = true := by
      unfold granted
      unfold owner at ho
      unfold queue at hqueue
      rw [ho,hqueue]
      simp
    have hta : t ≠ a := by
      rintro rfl
      rw [hgranted] at hg
      cases hg
    have hwt : (m.task t).waits = some s := hq.mem_iff.mp (by rw [hqueue]; exact List.mem_cons_self)
    obtain ⟨m',hstep⟩ := resume_of_granted fs cfg hwt hgranted
    refine ⟨t,m',hta,hstep,?_⟩
    have hlater : a ∈ ts := by
      rw [hqueue] at ha
      exact (List.mem_cons.mp ha).resolve_left hta.symm
    have hbefore : t ∈ m.ahead a s := by
      rw [mem_ahead,hqueue]
      exact (List.singleton_sublist.mpr hlater).cons_cons t
    have hsub : m'.ahead a s ⊆ (m.ahead a s).erase t := by
      have hto := locks_take (head_of_granted hgranted).1 (fun t' ht' =>
        Option.some.inj (ht'.symm.trans (head_of_granted hgranted).2)) s
      refine ahead_subset hta.symm ha ((hq t).take fun r hr => ?_) hto
        ((resume_cases t hc.registry hstep).turn hwt (hq t))
      exact Option.some.inj (hr.symm.trans hwt)
    have hcard := Finset.card_le_card hsub
    rw [Finset.card_erase_of_mem hbefore] at hcard
    have hpos := Finset.card_pos.mpr ⟨t,hbefore⟩
    have hle := owing_le m' s
    unfold due
    omega
  | some t =>
    have hh : (m.task t).holds = some s := (hc.locks s t).mp ho
    have hnone : (m.task t).waits = none := by
      cases hpc : m.task t <;> rw [hpc] at hh <;> first | rfl | cases hh
    have hta : t ≠ a := by
      rintro rfl
      rw [hw] at hnone
      cases hnone
    have hstands : Stands m t none := hnone ▸ hq t
    obtain ⟨m',hstep⟩ := resume_of_holds fs cfg hh
    refine ⟨t,m',hta,hstep,?_⟩
    rcases (resume_cases t hc.registry hstep).givesBack ho hh hstands with hmoves | ⟨hheap,hless⟩
    · have hsub := (ahead_subset hta.symm ha hstands.unlock (locks_unlock s) hmoves).trans
        (Finset.erase_subset _ _)
      have hout : t ∉ (m.unlock s).queue s := List.count_eq_zero.mp (hstands.unlock s)
      have hbehind : ¬[t,a].Sublist ((m.unlock s).queue s) :=
        fun hs => hout (hs.subset List.mem_cons_self)
      have hthere : a ∈ (m.unlock s).queue s := ((locks_unlock s).mem_iff hta.symm).mpr ha
      have hfree : ((m.unlock s).heap s).lock.owner = none := by
        simp [Manager.unlock,setLock,setSession_heap]
      have hnobody : m'.owner s = none := by
        cases hb : m'.owner s with
        | none => rfl
        | some b =>
          rcases hmoves.owner_cases hb with rfl | hb'
          · have hb' := (hmoves.behind hta.symm hthere hbehind).2 hb
            rw [hfree] at hb'
            cases hb'
          · rw [hfree] at hb'
            cases hb'
      have hcard := Finset.card_le_card hsub
      have howing : m'.owing s = 0 := by rw [owing,hnobody]
      have howed : 0 < m.owing s := by
        rw [owing,ho]
        dsimp only
        split <;> decide
      unfold due
      omega
    · have hahead : m'.ahead a s = m.ahead a s := by
        unfold ahead queue
        rw [hheap]
      unfold due
      rw [hahead]
      omega

/-- Nobody waits for a lock in vain: from every reachable state the others can go on, each as its
lock and its worker thread let it, until it is the turn of the waiter. It takes them at most three
steps for each of those before it. -/
theorem turn_comes (run : Machine.Run (step fs cfg) (init cfg) h m)
    (hwaits : (m.task a).waits = some s) : ∃ h' m',
    Machine.Run (step fs cfg) m h' m' ∧ (∀ p ∈ h', ∃ t, t ≠ a ∧ p.2 = .resume t .ok) ∧
      h'.length ≤ 3*(m.ahead a s).card+2 ∧ m'.task a = m.task a ∧ m'.granted a s = true := by
  have hbound : m.due a s ≤ 3*(m.ahead a s).card+2 := Nat.add_le_add_left (owing_le m s) _
  let waiting (m' : Manager D A) : Prop :=
    (∃ h', Machine.Run (step fs cfg) (init cfg) h' m') ∧ m'.task a = m.task a
  have hnearer (m₁ : Manager D A) (hm₁ : waiting m₁) (hg : m₁.granted a s ≠ true) : ∃ e m₂,
      (∃ t, t ≠ a ∧ e = .resume t .ok) ∧ m₁.step fs cfg e = some m₂ ∧ waiting m₂ ∧
        m₂.due a s < m₁.due a s := by
    obtain ⟨⟨h',run'⟩,htask⟩ := hm₁
    have hc := coherent_of_run run'
    obtain ⟨t,m₂,hta,hstep,hless⟩ := due_step fs hc (queueSound_of_run run') (htask ▸ hwaits)
      (by simpa using hg)
    have htask' : m₂.task a = m₁.task a :=
      (step_cases hc.registry hstep).others hc.registry fun he => hta (Option.some.inj he)
    exact ⟨_,m₂,⟨t,hta,rfl⟩,hstep,⟨⟨_,run'.next hstep⟩,htask'.trans htask⟩,hless⟩
  obtain ⟨h',m',run',hothers,hlength,⟨-,htask⟩,hturn⟩ := Machine.Run.descend
    (fun _ (e : Event D A) => ∃ t, t ≠ a ∧ e = .resume t .ok)
    (fun m' : Manager D A => m'.granted a s = true) (fun m' => m'.due a s) hnearer ⟨⟨h,run⟩,rfl⟩
  exact ⟨h',m',run',hothers,hlength.trans hbound,htask,hturn⟩

/-- A request waits behind another one, and behind a delete that is under way. -/
theorem turn_comes_delete : ∃ h m h' m',
    Machine.Run (step Storage.log Config.tight) (init Config.tight) h m ∧
      m.owner 0 = some 1 ∧ m.queue 0 = [2,3] ∧
        Machine.Run (step Storage.log Config.tight) m h' m' ∧
          (∀ p ∈ h', ∃ t, t ≠ 3 ∧ p.2 = .resume t .ok) ∧ h'.length ≤ 5 ∧
            m'.task 3 = m.task 3 ∧ m'.granted 3 0 = true := by
  have hrun : ∃ h m, Machine.replay (step Storage.log Config.tight) [] (init Config.tight)
      [.create 0 .create true,.resume 0 .ok,.delete 1 0,.request 2 0,.request 3 0] = some (h,m) ∧
        (m.task 3).waits = some 0 ∧ m.owner 0 = some 1 ∧ m.queue 0 = [2,3] :=
    ⟨_,_,rfl,rfl,rfl,rfl⟩
  obtain ⟨h,m,hr,hw,ho,hqueue⟩ := hrun
  obtain ⟨h',m',run',hothers,hlength,htask,hturn⟩ := turn_comes (Machine.replay_run hr) hw
  have hahead : (m.ahead 3 0).card = 1 := by
    rw [ahead,hqueue]
    decide
  rw [hahead] at hlength
  exact ⟨h,m,h',m',Machine.replay_run hr,ho,hqueue,run',hothers,hlength,htask,hturn⟩

end Turn
end Manager
end CodeExecutorApi
