import Mathlib.Data.List.Nodup
import CodeExecutorApi.Sessions.Manager

/-! What every run keeps: the registry maps distinct ids to distinct `Session` objects made
earlier, and the lock of a session is owned by exactly the task suspended inside it. -/
namespace CodeExecutorApi

/-- The session whose lock a suspended task holds. -/
def Pc.holds {A : Type} : Pc A → Option Ref
  | .body _ s | .remove _ s | .deletion _ _ s _ | .deleted _ _ s _ => some s
  | _ => none

/-- The session a suspended task works on. -/
def Pc.session {A : Type} : Pc A → Option Ref
  | .idle => none
  | .applyQuota _ s | .undoCreate s | .seed s _ | .acquire _ s | .body _ s | .remove _ s => some s
  | .tryAcquire _ s _ | .deletion _ _ s _ | .deleted _ _ s _ => some s
  | .done c _ => c

/-- The rest of the snapshot a sweep still has to visit. -/
def Pc.rest {A : Type} : Pc A → List Ref
  | .tryAcquire _ _ rest | .deletion _ _ _ rest | .deleted _ _ _ rest => rest
  | _ => []

/-- What runs inside `locked`. -/
def Pc.use {A : Type} : Pc A → Option Use
  | .acquire u _ | .body u _ | .remove u _ => some u
  | _ => none

/-- The await at which a use of `locked` is suspended once its block has begun. -/
def Use.started {A : Type} (u : Use) (s : Ref) : Pc A :=
  match u with
  | .request | .execute _ => .body u s
  | .delete | .cleanup _ => .remove u s

@[simp] theorem Use.started_holds {A : Type} (u : Use) (s : Ref) :
    (u.started s : Pc A).holds = some s := by cases u <;> rfl
@[simp] theorem Use.started_session {A : Type} (u : Use) (s : Ref) :
    (u.started s : Pc A).session = some s := by cases u <;> rfl
@[simp] theorem Use.started_rest {A : Type} (u : Use) (s : Ref) :
    (u.started s : Pc A).rest = [] := by cases u <;> rfl
@[simp] theorem Use.started_use {A : Type} (u : Use) (s : Ref) :
    (u.started s : Pc A).use = some u := by cases u <;> rfl

namespace Manager
variable {D A : Type}

def owner (m : Manager D A) (s : Ref) : Option TaskId := (m.heap s).lock.owner

section Updates
variable (m : Manager D A) (t : TaskId) (s r : Ref)

@[grind =] theorem setSession_heap (x : Session) :
    (m.setSession s x).heap r = if r = s then x else m.heap r := by
  simp [setSession,Function.update_apply]

@[grind =] theorem setPc_task (t' : TaskId) (pc : Pc A) :
    (m.setPc t pc).task t' = if t' = t then pc else m.task t' := by
  simp [setPc,Function.update_apply]

@[grind =] theorem setDir_dir (d : Option D) :
    (m.setDir s d).dir r = if r = s then d else m.dir r := by
  simp [setDir,Function.update_apply]

attribute [grind =] owner take unlock enqueue dequeue touch setLock finish pop register abandon
  mkdtemp setSession setPc setDir Pc.holds Pc.session Pc.rest Pc.use

/-- Changing a lock or a stamp leaves the registered sessions alone. -/
theorem registered_congr {m m' : Manager D A} (hs : m'.sessions = m.sessions)
    (hi : (m'.heap s).id = (m.heap s).id) : m'.registered s = m.registered s := by
  simp [registered,get,hs,hi]

@[simp, grind =] theorem setPc_registered (pc : Pc A) :
    (m.setPc t pc).registered s = m.registered s := rfl
@[simp, grind =] theorem setDir_registered (d : Option D) :
    (m.setDir r d).registered s = m.registered s := rfl
@[simp, grind =] theorem abandon_registered : (m.abandon r).registered s = m.registered s := rfl
@[simp, grind =] theorem take_registered : (m.take t r).registered s = m.registered s :=
  registered_congr s rfl (by grind)
@[simp, grind =] theorem unlock_registered : (m.unlock r).registered s = m.registered s :=
  registered_congr s rfl (by grind)
@[simp, grind =] theorem enqueue_registered : (m.enqueue t r).registered s = m.registered s :=
  registered_congr s rfl (by grind)
@[simp, grind =] theorem dequeue_registered : (m.dequeue t r).registered s = m.registered s :=
  registered_congr s rfl (by grind)
@[simp, grind =] theorem touch_registered : (m.touch r).registered s = m.registered s :=
  registered_congr s rfl (by grind)
@[simp, grind =] theorem releaseProjectId_registered (p : Option ℕ) :
    (m.releaseProjectId p).registered s = m.registered s := by cases p <;> rfl

theorem releaseProjectId_eq (p : Option ℕ) :
    m.releaseProjectId p = { m with freeProjectIds := m.freeProjectIds ++ p.toList } := by
  cases p <;> simp [releaseProjectId]

theorem owner_of_free (h : (m.heap s).lock.free = true) : m.owner s = none := by
  simp only [Lock.free,Bool.and_eq_true,Option.isNone_iff_eq_none] at h
  exact h.1

/-- Locking a free lock and giving it back changes nothing. -/
theorem take_unlock (h : (m.heap s).lock.free = true) : (m.take t s).unlock s = m := by
  have hw : (m.heap s).lock = ⟨none,[]⟩ := by
    simp only [Lock.free,Bool.and_eq_true,Option.isNone_iff_eq_none,List.isEmpty_iff] at h
    cases hl : (m.heap s).lock
    simp_all
  have hh : ((m.take t s).unlock s).heap = m.heap := by
    funext r
    by_cases hr : r = s
    · subst r
      simp only [unlock,take,setLock,setSession_heap,if_true]
      rw [hw]
      simp [← hw]
    · simp [unlock,take,setLock,setSession_heap,hr]
  cases m
  simpa [unlock,take,setLock,setSession] using hh

end Updates

/-- In a dictionary with distinct keys a lookup finds exactly the entries. -/
theorem lookup_eq_some_iff_mem {α β : Type} [DecidableEq α] {l : List (α × β)}
    (h : (l.map Prod.fst).Nodup) {k : α} {b : β} : l.lookup k = some b ↔ (k,b) ∈ l := by
  induction l with
  | nil => simp
  | cons p l ih =>
    obtain ⟨a,c⟩ := p
    obtain ⟨ha,hl⟩ := List.nodup_cons.mp h
    rw [List.lookup_cons,List.mem_cons,Prod.mk.injEq]
    by_cases hk : k = a
    · subst a
      have hb : (k,b) ∉ l := fun hb => ha (List.mem_map.mpr ⟨_,hb,rfl⟩)
      simp [hb,eq_comm]
    · have hk' : (k == a) = false := by simpa using hk
      simp [hk,hk',ih hl]

/-- Object `n` carries the n-th token, and only objects made so far are registered. -/
structure Registry (cfg : Config) (m : Manager D A) : Prop where
  ids : ∀ s, (m.heap s).id = cfg.tokenUrlsafe s
  entries : ∀ p ∈ m.sessions, p.2 < m.next ∧ p.1 = cfg.tokenUrlsafe p.2
  nodup : (m.sessions.map Prod.snd).Nodup

namespace Registry
variable {cfg : Config} {m m' : Manager D A} (h : Registry cfg m)
include h

theorem keys_nodup : (m.sessions.map Prod.fst).Nodup := by
  have hk : m.sessions.map Prod.fst = (m.sessions.map Prod.snd).map cfg.tokenUrlsafe := by
    rw [List.map_map]
    exact List.map_congr_left fun p hp => (h.entries p hp).2
  rw [hk]
  exact List.Nodup.map cfg.token_injective h.nodup

theorem get_iff {id : SessionId} {s : Ref} : m.get id = some s ↔ (id,s) ∈ m.sessions :=
  lookup_eq_some_iff_mem h.keys_nodup

theorem registered_iff {s : Ref} : m.registered s = true ↔ s ∈ m.sessions.map Prod.snd := by
  simp only [registered,beq_iff_eq,h.get_iff]
  constructor
  · exact fun hp => List.mem_map.mpr ⟨_,hp,rfl⟩
  · intro hs
    obtain ⟨⟨i,r⟩,hp,rfl⟩ := List.mem_map.mp hs
    have hi := (h.entries _ hp).2
    rw [h.ids,← hi]
    exact hp

theorem registered_lt {s : Ref} (hs : m.registered s = true) : s < m.next := by
  obtain ⟨p,hp,rfl⟩ := List.mem_map.mp (h.registered_iff.mp hs)
  exact (h.entries p hp).1

theorem registered_of_get {id : SessionId} {s : Ref} (hs : m.get id = some s) :
    m.registered s = true ∧ id = cfg.tokenUrlsafe s := by
  have hp := h.get_iff.mp hs
  exact ⟨h.registered_iff.mpr (List.mem_map.mpr ⟨_,hp,rfl⟩),(h.entries _ hp).2⟩

/-- Updates of locks, stamps, tasks and directories keep the registry. -/
theorem congr (hs : m'.sessions = m.sessions) (hn : m'.next = m.next)
    (hi : ∀ s, (m'.heap s).id = (m.heap s).id) : Registry cfg m' :=
  ⟨by simpa [hi] using h.ids,by simpa [hs,hn] using h.entries,by simpa [hs] using h.nodup⟩

theorem mem_pop {s : Ref} {p : SessionId × Ref} :
    p ∈ (m.pop s).sessions ↔ p ∈ m.sessions ∧ p.2 ≠ s := by
  simp only [pop,List.mem_filter,bne_iff_ne,h.ids s]
  refine and_congr_right fun hp => not_congr ?_
  rw [(h.entries p hp).2]
  exact cfg.token_injective.eq_iff

theorem pop_registered (s r : Ref) :
    (m.pop s).registered r = true ↔ m.registered r = true ∧ r ≠ s := by
  have hn : ((m.pop s).sessions.map Prod.fst).Nodup :=
    h.keys_nodup.sublist (List.filter_sublist.map _)
  have hg : (m.pop s).get (m.heap r).id = some r ↔ ((m.heap r).id,r) ∈ (m.pop s).sessions :=
    lookup_eq_some_iff_mem hn
  simp only [registered,beq_iff_eq,h.get_iff]
  rw [← h.mem_pop,← hg]
  rfl

theorem popped (s : Ref) : (m.pop s).registered s = false := by
  rw [Bool.eq_false_iff]
  exact fun hr => ((h.pop_registered s s).mp hr).2 rfl

theorem pop (s : Ref) : Registry cfg (m.pop s) where
  ids := h.ids
  entries p hp := h.entries p (h.mem_pop.mp hp).1
  nodup := h.nodup.sublist (List.filter_sublist.map _)

/-- The object made next joins the registry under its own token. -/
theorem register (hs : m'.sessions = m.sessions) (hh : m'.heap = m.heap)
    (hn : m'.next = m.next+1) {x : Session} (hx : x.id = cfg.tokenUrlsafe m.next) :
    Registry cfg (m'.register m.next x) where
  ids s := by
    simp only [Manager.register,setSession_heap,hh]
    split_ifs with he
    · rw [hx,he]
    · exact h.ids s
  entries p hp := by
    change p ∈ m'.sessions ++ [(x.id,m.next)] at hp
    change p.2 < m'.next ∧ p.1 = cfg.tokenUrlsafe p.2
    rw [hs,List.mem_append,List.mem_singleton] at hp
    rw [hn]
    rcases hp with hp | rfl
    · have := h.entries p hp
      exact ⟨Nat.lt_succ_of_lt this.1,this.2⟩
    · exact ⟨Nat.lt_succ_self _,hx⟩
  nodup := by
    change ((m'.sessions ++ [(x.id,m.next)]).map Prod.snd).Nodup
    rw [hs,List.map_append]
    refine List.nodup_append.mpr ⟨h.nodup,List.nodup_singleton _,?_⟩
    intro a hm b hb
    obtain ⟨p,hp,rfl⟩ := List.mem_map.mp hm
    rw [List.mem_singleton.mp hb]
    exact Nat.ne_of_lt (h.entries p hp).1

theorem register_registered (hs : m'.sessions = m.sessions) (hh : m'.heap = m.heap)
    (hn : m'.next = m.next+1) {x : Session} (hx : x.id = cfg.tokenUrlsafe m.next) (r : Ref) :
    (m'.register m.next x).registered r = true ↔ m.registered r = true ∨ r = m.next := by
  rw [(h.register hs hh hn hx).registered_iff,h.registered_iff]
  simp [Manager.register,hs]

end Registry

/-- What holds of the await a task is suspended at: it names objects made so far, a handler
inside `locked` for the session it created is on that session, and `create` unregisters before
it removes. -/
structure Pc.Sound (m : Manager D A) (pc : Pc A) : Prop where
  session_lt : ∀ s, pc.session = some s → s < m.next
  rest_lt : ∀ s ∈ pc.rest, s < m.next
  created : ∀ u s r, pc.use = some u → pc.session = some s → u.created = some r → r = s
  begun : ∀ u s, pc = .body u s ∨ pc = .remove u s → pc = u.started s
  undone : ∀ s, pc = .undoCreate s → m.registered s = false

/-- From `m` to `m'` sessions may be made and unregistered, but none comes back. -/
def Forward (m m' : Manager D A) : Prop :=
  m.next ≤ m'.next ∧ ∀ s < m.next, m'.registered s = true → m.registered s = true

/-- Outside `locked` only the objects named have to exist. -/
theorem Pc.Sound.outside {m : Manager D A} {pc : Pc A} (hu : pc.use = none)
    (hp : ∀ s, pc ≠ .undoCreate s) (hs : ∀ s, pc.session = some s → s < m.next)
    (hr : ∀ s ∈ pc.rest, s < m.next) : Pc.Sound m pc where
  session_lt := hs
  rest_lt := hr
  created := by simp [hu]
  begun := by rintro u s (rfl | rfl) <;> cases hu
  undone s he := absurd he (hp s)

theorem Pc.Sound.forward {m m' : Manager D A} {pc : Pc A} (h : Pc.Sound m pc)
    (hf : Forward m m') : Pc.Sound m' pc where
  session_lt s hs := Nat.lt_of_lt_of_le (h.session_lt s hs) hf.1
  rest_lt s hs := Nat.lt_of_lt_of_le (h.rest_lt s hs) hf.1
  created := h.created
  begun := h.begun
  undone s hs := by
    have hu := h.undone s hs
    have hlt := h.session_lt s (by simp [hs,Pc.session])
    rw [Bool.eq_false_iff] at hu ⊢
    exact fun hr => hu (hf.2 s hlt hr)

/-- The invariant of all runs: a lock is owned by exactly the task suspended under it. -/
structure Coherent (cfg : Config) (m : Manager D A) : Prop where
  registry : Registry cfg m
  abandoned : ∀ s ∈ m.abandoned, s < m.next ∧ m.registered s = false
  sound : ∀ t, Pc.Sound m (m.task t)
  locks : ∀ s t, m.owner s = some t ↔ (m.task t).holds = some s

/-- The same while task `t` runs and holds the lock of `l`, if any. -/
structure Running (cfg : Config) (m : Manager D A) (t : TaskId) (l : Option Ref) : Prop where
  registry : Registry cfg m
  abandoned : ∀ s ∈ m.abandoned, s < m.next ∧ m.registered s = false
  sound : ∀ t' ≠ t, Pc.Sound m (m.task t')
  locks : ∀ s, ∀ t' ≠ t, m.owner s = some t' ↔ (m.task t').holds = some s
  own : ∀ s, m.owner s = some t ↔ l = some s

theorem Coherent.running {cfg : Config} {m : Manager D A} (h : Coherent cfg m) (t : TaskId) :
    Running cfg m t (m.task t).holds :=
  ⟨h.registry,h.abandoned,fun t' _ => h.sound t',fun s t' _ => h.locks s t',fun s => h.locks s t⟩

namespace Running
variable {cfg : Config} {m m' : Manager D A} {t : TaskId} {l : Option Ref} {s : Ref}

theorem suspend (h : Running cfg m t l) {pc : Pc A} (hs : Pc.Sound m pc) (hl : pc.holds = l) :
    Coherent cfg (m.setPc t pc) where
  registry := h.registry.congr rfl rfl fun _ => rfl
  abandoned := h.abandoned
  sound t' := by
    rw [setPc_task]
    split_ifs with ht
    · exact hs.forward ⟨Nat.le_refl _,fun r _ hr => hr⟩
    · exact (h.sound t' ht).forward ⟨Nat.le_refl _,fun r _ hr => hr⟩
  locks s t' := by
    rw [setPc_task]
    split_ifs with ht
    · subst t'
      exact (h.own s).trans (by rw [hl])
    · exact h.locks s t' ht

/-- Updates that leave locks and tasks alone. -/
theorem frame (h : Running cfg m t l) (hr : Registry cfg m') (hf : Forward m m')
    (ha : m'.abandoned = m.abandoned) (ht : m'.task = m.task)
    (ho : ∀ s, m'.owner s = m.owner s) : Running cfg m' t l where
  registry := hr
  abandoned s hs := by
    rw [ha] at hs
    obtain ⟨hlt,hu⟩ := h.abandoned s hs
    rw [Bool.eq_false_iff] at hu ⊢
    exact ⟨Nat.lt_of_lt_of_le hlt hf.1,fun hp => hu (hf.2 s hlt hp)⟩
  sound t' hne := by rw [ht]; exact (h.sound t' hne).forward hf
  locks s t' hne := by rw [ho,ht]; exact h.locks s t' hne
  own s := by rw [ho]; exact h.own s

theorem take (h : Running cfg m t none) (hs : m.owner s = none) :
    Running cfg (m.take t s) t (some s) where
  registry := h.registry.congr rfl rfl fun _ => by grind
  abandoned r hr := ⟨(h.abandoned r hr).1,by simpa using (h.abandoned r hr).2⟩
  sound t' ht := (h.sound t' ht).forward ⟨Nat.le_refl _,fun r _ hr => by simpa using hr⟩
  locks r t' ht := by have := h.locks r t' ht; grind
  own r := by have := h.own r; grind

theorem unlock (h : Running cfg m t (some s)) : Running cfg (m.unlock s) t none where
  registry := h.registry.congr rfl rfl fun _ => by grind
  abandoned r hr := ⟨(h.abandoned r hr).1,by simpa using (h.abandoned r hr).2⟩
  sound t' ht := (h.sound t' ht).forward ⟨Nat.le_refl _,fun r _ hr => by simpa using hr⟩
  locks r t' ht := by
    have hr := h.locks r t' ht
    have hs := h.own s
    grind
  own r := by have := h.own r; grind

end Running
end Manager
end CodeExecutorApi
