import CodeExecutorApi.Sessions.Coherence
import CodeExecutorApi.Sessions.Effects

/-! A whole pass of the sweep: which sessions it comes to, which locks it takes and gives back, and
what is left of the sessions that had expired when it began. -/
namespace CodeExecutorApi

/-- A task inside `_sweep_once`. -/
def Pc.sweeping {A : Type} : Pc A → Bool
  | .tryAcquire .. | .deletion .. | .deleted .. => true
  | _ => false

/-- The session whose lock a pass holds across an await, and whether the removal it holds the lock
for still runs. -/
def Pc.covering {A : Type} : Pc A → Option (Ref × Bool)
  | .deletion _ _ s _ => some (s,true)
  | .deleted _ _ s _ => some (s,false)
  | _ => none

theorem Pc.covering_of_not_sweeping {A : Type} {pc : Pc A} (h : pc.sweeping = false) :
    pc.covering = none := by
  cases pc <;> first | rfl | cases h

namespace Manager
variable {D A : Type}

/-- What a pass does between two awaits. A removal that was forsaken goes on in its worker thread,
but the pass does not wait for it any more. -/
inductive Move (D A : Type)
  | visits (m : Manager D A) (s : Ref)
  | acquires (s : Ref)
  | removes (s : Ref)
  | removed (s : Ref)
  | forsakes (s : Ref)
  | releases (s : Ref)

/-- The moves of `sweepFrom`. -/
def sweepMoves (cfg : Config) (t : TaskId) (now : ℕ) : List Ref → Manager D A → List (Move D A)
  | [],_ => []
  | s::rest,m =>
    .visits m s :: if (m.heap s).lock.free then
      .acquires s :: if m.expired cfg now s then [.removes s]
        else .releases s :: sweepMoves cfg t now rest ((m.take t s).unlock s)
    else []

/-- The moves of a step of a pass. -/
def moves (cfg : Config) (m : Manager D A) : Event D A → List (Move D A)
  | .sweep t => sweepMoves cfg t m.clock (m.sessions.map Prod.snd) m
  | .resume t sig =>
    match m.task t,sig with
    | .tryAcquire now s rest,.ok =>
      .acquires s :: if m.expired cfg now s then [.removes s]
        else .releases s :: sweepMoves cfg t now rest ((m.take t s).unlock s)
    | .tryAcquire now s rest,.timeout => sweepMoves cfg t now rest (m.dequeue t s)
    | .deletion false _ _ _,.cancelled => []
    | .deletion true _ s _,.cancelled => [.forsakes s]
    | .deletion _ _ s _,_ => [.removed s]
    | .deleted cancelled now s rest,sig =>
      .releases s :: if sig = .cancelled ∨ cancelled = true then []
        else sweepMoves cfg t now rest (m.unlock s)
    | _,_ => []
  | _ => []

/-- What task `t` did as a pass, the earliest move first. -/
def passMoves (cfg : Config) (t : TaskId) : List (Manager D A × Event D A) → List (Move D A)
  | [] => []
  | p::h => passMoves cfg t h ++ if p.2.task = some t then p.1.moves cfg p.2 else []

/-- How a task inside a pass goes on, and the moves it makes. -/
inductive Passes (cfg : Config) (m : Manager D A) (t : TaskId) :
    Signal → Manager D A → List (Move D A) → Prop
  | swept {now s rest} (pc : m.task t = .tryAcquire now s rest)
      (expired : m.expired cfg now s = true) :
      Passes cfg m t .ok ((m.take t s).setPc t (.deletion false now s rest))
        [.acquires s,.removes s]
  | skipped {now s rest} (pc : m.task t = .tryAcquire now s rest)
      (fresh : m.expired cfg now s = false) :
      Passes cfg m t .ok (sweepFrom cfg t now rest ((m.take t s).unlock s))
        (.acquires s :: .releases s :: sweepMoves cfg t now rest ((m.take t s).unlock s))
  | passed {now s rest} (pc : m.task t = .tryAcquire now s rest) :
      Passes cfg m t .timeout (sweepFrom cfg t now rest (m.dequeue t s))
        (sweepMoves cfg t now rest (m.dequeue t s))
  | sweepCancelled {now s rest} (pc : m.task t = .tryAcquire now s rest) :
      Passes cfg m t .cancelled ((m.dequeue t s).finish t none .cancelled) []
  | shielded {now s rest} (pc : m.task t = .deletion false now s rest) :
      Passes cfg m t .cancelled (m.setPc t (.deletion true now s rest)) []
  | forsaken {now s rest} (pc : m.task t = .deletion true now s rest) :
      Passes cfg m t .cancelled
        ((m.afterRemoval s .cancelled).setPc t (.deleted true now s rest)) [.forsakes s]
  | deleted {cancelled now s rest sig} (pc : m.task t = .deletion cancelled now s rest)
      (hsig : sig ≠ .cancelled) :
      Passes cfg m t sig ((m.afterRemoval s sig).setPc t (.deleted cancelled now s rest))
        [.removed s]
  | ended {cancelled now s rest sig} (pc : m.task t = .deleted cancelled now s rest) :
      Passes cfg m t sig ((m.unlock s).finish t none .cancelled) [.releases s]
  | went {now s rest sig} (pc : m.task t = .deleted false now s rest) :
      Passes cfg m t sig (sweepFrom cfg t now rest (m.unlock s))
        (.releases s :: sweepMoves cfg t now rest (m.unlock s))

section Passes
variable {fs : Storage D A} {cfg : Config} {m m' : Manager D A} {t : TaskId} {sig : Signal}

theorem resume_passes (hpc : (m.task t).sweeping = true)
    (hstep : m.resume fs cfg t sig = some m') :
    Passes cfg m t sig m' (m.moves cfg (.resume t sig)) := by
  cases htask : m.task t <;> rw [htask] at hpc <;> cases hpc
  case tryAcquire now s rest =>
    cases sig with
    | ok =>
      simp only [resume,htask] at hstep
      split_ifs at hstep
      cases hstep
      simp only [moves,htask,sweepLocked,take_expired]
      cases hexpired : m.expired cfg now s with
      | true => exact .swept htask hexpired
      | false => exact .skipped htask hexpired
    | timeout =>
      simp only [resume,htask] at hstep
      cases hstep
      simp only [moves,htask]
      exact .passed htask
    | cancelled =>
      simp only [resume,htask] at hstep
      cases hstep
      simp only [moves,htask]
      exact .sweepCancelled htask
    | osError | exception =>
      simp only [resume,htask] at hstep
      cases hstep
  case deletion cancelled now s rest =>
    simp only [resume,htask] at hstep
    simp only [moves,htask]
    by_cases hsig : sig = .cancelled
    · subst hsig
      cases cancelled with
      | false =>
        cases hstep
        exact .shielded htask
      | true =>
        cases hstep
        exact .forsaken htask
    · rw [if_neg fun h => hsig h.1] at hstep
      cases hstep
      cases cancelled <;> cases sig <;>
        first | exact absurd rfl hsig | exact .deleted htask hsig
  case deleted cancelled now s rest =>
    simp only [resume,htask] at hstep
    simp only [moves,htask]
    split_ifs at hstep ⊢ with hc
    · cases hstep
      exact .ended htask
    · cases hstep
      have hnot : cancelled = false := by simpa using fun h => hc (.inr h)
      subst hnot
      exact .went htask

/-- Outside every pass. -/
def Unsweeping (pc : Pc A) : Prop := pc.sweeping = false

theorem unsweeping_acquire (u : Use) (s : Ref) : Unsweeping (.acquire u s : Pc A) := rfl

theorem unsweeping_started (u : Use) (s : Ref) : Unsweeping (u.started s : Pc A) := by
  cases u <;> rfl

theorem unsweeping_done (c : Option Ref) (how : Ending) : Unsweeping (.done c how : Pc A) := rfl

theorem Leaves.unsweeping {u : Use} {how : Ending} (leaves : Leaves m t u how m') :
    Unsweeping (m'.task t) :=
  leaves.task unsweeping_acquire unsweeping_started unsweeping_done

theorem Enters.unsweeping {u : Use} {id : SessionId} (enters : Enters m t u id m') :
    Unsweeping (m'.task t) :=
  enters.task unsweeping_acquire unsweeping_started unsweeping_done

theorem Created.unsweeping {s : Ref} {k : Creator A} (created : Created m t s k m') :
    Unsweeping (m'.task t) :=
  created.task unsweeping_acquire unsweeping_started unsweeping_done fun _ _ => rfl

/-- No other await leads into a pass. -/
theorem Resumes.unsweeping (hpc : Unsweeping (m.task t)) (resumes : Resumes fs cfg m t sig m') :
    Unsweeping (m'.task t) := by
  cases resumes with
  | quotaSet _ created => exact created.unsweeping
  | seedCleans _ _ _ locks => exact locks.task unsweeping_acquire unsweeping_started
  | retired _ _ _ leaves | waitedTooLong _ leaves | waitCancelled _ leaves | left _ leaves
  | removed _ leaves => exact leaves.unsweeping
  | entered =>
    rw [setPc_task,if_pos rfl]
    exact unsweeping_started _ _
  | quotaFailed | undone | undoAbandoned | undoFailed | seedCancelled | seeded | seedPart
  | seedFailed =>
    simp only [undo,finish,setPc_task,if_pos]
    rfl
  | swept pc | skipped pc | passed pc | sweepCancelled pc | shielded pc | deleted pc
  | sweepEnded pc | sweepWent pc =>
    rw [pc] at hpc
    cases hpc

theorem moves_unsweeping (hpc : Unsweeping (m.task t)) (sig : Signal) :
    m.moves cfg (.resume t sig) = [] := by
  simp only [moves]
  cases htask : m.task t <;> rw [htask] at hpc <;> first | rfl | cases hpc

/-- How a step changes a task: the beginning of a pass, a step of a pass, or none of a pass. -/
inductive Turns (cfg : Config) (m : Manager D A) (t : TaskId) :
    Event D A → Manager D A → List (Move D A) → Prop
  | begins (idle : m.task t = .idle) : Turns cfg m t (.sweep t)
      (sweepFrom cfg t m.clock (m.sessions.map Prod.snd) m)
      (sweepMoves cfg t m.clock (m.sessions.map Prod.snd) m)
  | passes {sig m' ms} (passes : Passes cfg m t sig m' ms) : Turns cfg m t (.resume t sig) m' ms
  | other {e m'} (hpc : Unsweeping (m.task t)) (hpc' : Unsweeping (m'.task t)) :
      Turns cfg m t e m' []

/-- Every step that task `t` takes. -/
theorem step_turns (hr : Registry cfg m) {e : Event D A} (ht : e.task = some t)
    (hstep : m.step fs cfg e = some m') : Turns cfg m t e m' (m.moves cfg e) := by
  have steps := step_cases hr hstep
  cases steps <;> cases ht
  case create idle creates =>
    refine .other (by rw [idle]; rfl) ?_
    cases creates with
    | plain _ created => exact created.unsweeping
    | refused | exhausted | quota =>
      simp only [finish,setPc_task,if_pos]
      rfl
  case request idle enters | delete idle enters =>
    exact .other (by rw [idle]; rfl) enters.unsweeping
  case sweep idle _ =>
    simp only [step,(idle_iff t).mpr idle,if_true] at hstep
    cases hstep
    exact .begins idle
  case resume sig resumes =>
    cases hpc : (m.task t).sweeping with
    | true => exact .passes (resume_passes hpc hstep)
    | false =>
      rw [moves_unsweeping hpc]
      exact .other hpc (resumes.unsweeping hpc)

end Passes

/-- The order a lock has to be used in. A state names the lock held and whether the removal it
covers still runs; only a lock that covers no running removal is given back. -/
def Move.next : Option (Ref × Bool) → Move D A → Option (Option (Ref × Bool))
  | none,.visits _ _ => some none
  | none,.acquires s => some (some (s,false))
  | some (s,false),.removes r => if r = s then some (some (s,true)) else none
  | some (s,true),.removed r | some (s,true),.forsakes r =>
    if r = s then some (some (s,false)) else none
  | some (s,false),.releases r => if r = s then some none else none
  | _,_ => none

/-- The lock that is held after some moves, none if one of them came out of order. -/
def Move.follow (l : Option (Ref × Bool)) (ms : List (Move D A)) : Option (Option (Ref × Bool)) :=
  ms.foldlM Move.next l

theorem Move.follow_append (l : Option (Ref × Bool)) (ms ms' : List (Move D A)) :
    Move.follow l (ms ++ ms') = (Move.follow l ms).bind (Move.follow · ms') :=
  List.foldlM_append

theorem Move.follow_cons (l : Option (Ref × Bool)) (w : Move D A) (ms : List (Move D A)) :
    Move.follow l (w::ms) = (Move.next l w).bind (Move.follow · ms) :=
  List.foldlM_cons

section Order
variable {fs : Storage D A} {cfg : Config} {m m' : Manager D A} {t : TaskId} {sig : Signal}

/-- A pass without a lock goes on in order, up to its next await. -/
theorem sweepMoves_follow (now : ℕ) (left : List Ref) (m : Manager D A) :
    Move.follow none (sweepMoves cfg t now left m) =
      some ((sweepFrom cfg t now left m).task t).covering := by
  induction left generalizing m with
  | nil =>
    rw [sweepFrom,finish,setPc_task,if_pos rfl]
    rfl
  | cons s rest ih =>
    rw [sweepMoves,sweepFrom,Move.follow_cons]
    split_ifs
    · rw [setPc_task,if_pos rfl]
      simp [Move.next,Move.follow,Pc.covering]
    · simpa [Move.next,Move.follow_cons] using ih _
    · rw [setPc_task,if_pos rfl]
      rfl

theorem Passes.follow {ms : List (Move D A)} (passes : Passes cfg m t sig m' ms) :
    Move.follow (m.task t).covering ms = some (m'.task t).covering := by
  cases passes with
  | swept pc =>
    rw [pc,setPc_task,if_pos rfl]
    simp [Pc.covering,Move.follow,Move.next]
  | skipped pc =>
    rw [pc]
    simpa [Pc.covering,Move.follow_cons,Move.next] using sweepMoves_follow _ _ _
  | passed pc =>
    rw [pc]
    exact sweepMoves_follow _ _ _
  | sweepCancelled pc =>
    rw [pc,finish,setPc_task,if_pos rfl]
    rfl
  | shielded pc =>
    rw [pc,setPc_task,if_pos rfl]
    rfl
  | forsaken pc | deleted pc =>
    rw [pc,setPc_task,if_pos rfl]
    simp [Pc.covering,Move.follow,Move.next]
  | ended pc =>
    rw [pc,finish,setPc_task,if_pos rfl]
    simp [Pc.covering,Move.follow,Move.next]
  | went pc =>
    rw [pc]
    simpa [Pc.covering,Move.follow_cons,Move.next] using sweepMoves_follow _ _ _

/-- One step of a task goes on in order from the lock the task held to the one it holds then. -/
theorem Turns.follow {e : Event D A} {ms : List (Move D A)} (turns : Turns cfg m t e m' ms) :
    Move.follow (m.task t).covering ms = some (m'.task t).covering := by
  cases turns with
  | begins idle =>
    rw [idle]
    exact sweepMoves_follow _ _ _
  | passes passes => exact passes.follow
  | other hpc hpc' =>
    rw [Pc.covering_of_not_sweeping hpc,Pc.covering_of_not_sweeping hpc']
    rfl

theorem passMoves_next (h : List (Manager D A × Event D A)) (e : Event D A) :
    passMoves cfg t ((m,e)::h) =
      passMoves cfg t h ++ if e.task = some t then m.moves cfg e else [] := rfl

/-- The moves of a task, in every run, are those of the lock it holds. -/
theorem passMoves_follow {h : List (Manager D A × Event D A)}
    (run : Machine.Run (step fs cfg) (init cfg) h m) :
    Move.follow none (passMoves cfg t h) = some (m.task t).covering := by
  induction run with
  | start => rfl
  | @next h m e m' run taken ih =>
    have hr := (coherent_of_run run).registry
    rw [passMoves_next,Move.follow_append,ih,Option.bind_some]
    split_ifs with ht
    · exact (step_turns hr ht taken).follow
    · rw [(step_cases hr taken).others hr ht]
      rfl

theorem forsakes_not_mem_sweepMoves (now : ℕ) (left : List Ref) (m : Manager D A) (s : Ref) :
    .forsakes s ∉ sweepMoves cfg t now left m := by
  induction left generalizing m with
  | nil => simp [sweepMoves]
  | cons r rest ih =>
    rw [sweepMoves]
    split_ifs <;> simp [ih]

/-- A removal is forsaken when a pass that was cancelled before is cancelled while it waits. -/
theorem Turns.forsakes {e : Event D A} {ms : List (Move D A)} (turns : Turns cfg m t e m' ms)
    {s : Ref} (hs : .forsakes s ∈ ms) :
    e = .resume t .cancelled ∧ ∃ now rest, m.task t = .deletion true now s rest := by
  cases turns with
  | begins => exact absurd hs (forsakes_not_mem_sweepMoves _ _ _ s)
  | other => simp at hs
  | passes passes =>
    cases passes with
    | swept | sweepCancelled | shielded | deleted | ended => simp at hs
    | passed => exact absurd hs (forsakes_not_mem_sweepMoves _ _ _ s)
    | skipped | went =>
      simp only [List.mem_cons,reduceCtorEq,false_or] at hs
      exact absurd hs (forsakes_not_mem_sweepMoves _ _ _ s)
    | forsaken pc =>
      simp only [List.mem_singleton,Move.forsakes.injEq] at hs
      subst hs
      exact ⟨rfl,_,_,pc⟩

theorem passMoves_forsakes {h : List (Manager D A × Event D A)}
    (run : Machine.Run (step fs cfg) (init cfg) h m) {s : Ref}
    (hs : .forsakes s ∈ passMoves cfg t h) : ∃ p ∈ h, p.2 = .resume t .cancelled ∧
      ∃ now rest, p.1.task t = .deletion true now s rest := by
  induction run with
  | start => simp [passMoves] at hs
  | @next h m e m' run taken ih =>
    rw [passMoves_next,List.mem_append] at hs
    rcases hs with hs | hs
    · obtain ⟨p,hp,hcancelled⟩ := ih hs
      exact ⟨p,List.mem_cons_of_mem _ hp,hcancelled⟩
    · split_ifs at hs with ht
      · exact ⟨(m,e),List.mem_cons_self,
          (step_turns (coherent_of_run run).registry ht taken).forsakes hs⟩
      · simp at hs

end Order
end Manager

/-- What a pass has not yet dealt with: the session it removes and the rest of its snapshot. -/
def Pc.ahead {A : Type} : Pc A → List Ref
  | .tryAcquire _ _ rest | .deleted _ _ _ rest => rest
  | .deletion _ _ s rest => s::rest
  | _ => []

/-- A pass that began at `now`, or a task that is over. -/
def Pc.PassOf {A : Type} (now : ℕ) : Pc A → Prop
  | .tryAcquire n _ _ | .deletion _ n _ _ | .deleted _ n _ _ => n = now
  | .done _ _ => True
  | _ => False

namespace Manager
variable {D A : Type}

section Passes
variable {fs : Storage D A} {cfg : Config} {m m' : Manager D A} {t : TaskId} {sig : Signal}
  {now : ℕ}

theorem setPc_passOf {pc : Pc A} (pass : pc.PassOf now) : ((m.setPc t pc).task t).PassOf now := by
  rwa [setPc_task,if_pos rfl]

theorem sweepFrom_passOf (left : List Ref) (m : Manager D A) :
    ((sweepFrom cfg t now left m).task t).PassOf now := by
  have sweeps : Sweeps cfg m t now left (sweepFrom cfg t now left m) := sweepFrom_cases t now left
  generalize sweepFrom cfg t now left m = m' at sweeps ⊢
  cases sweeps with
  | passed => exact setPc_passOf trivial
  | waits | deletes => exact setPc_passOf rfl

/-- A pass keeps the time it began at. -/
theorem Passes.passOf {ms : List (Move D A)} (pass : (m.task t).PassOf now)
    (passes : Passes cfg m t sig m' ms) : (m'.task t).PassOf now := by
  cases passes with
  | swept pc | shielded pc | forsaken pc | deleted pc =>
    rw [pc] at pass
    exact setPc_passOf pass
  | sweepCancelled | ended => exact setPc_passOf trivial
  | skipped pc | passed pc | went pc =>
    rw [pc] at pass
    cases pass
    exact sweepFrom_passOf _ _

theorem PassOf.unsweeping {pc : Pc A} (pass : pc.PassOf now) (hpc : Unsweeping pc) :
    ∃ c how, pc = .done c how := by
  cases pc with
  | done c how => exact ⟨c,how,rfl⟩
  | tryAcquire | deletion | deleted => cases hpc
  | _ => cases pass

/-- The task of a pass takes only steps of the pass. -/
theorem PassOf.passes (hr : Registry cfg m) (pass : (m.task t).PassOf now) {e : Event D A}
    (ht : e.task = some t) (taken : m.step fs cfg e = some m') :
    ∃ sig, Passes cfg m t sig m' (m.moves cfg e) := by
  have hbegun : m.task t ≠ .idle := by
    intro hidle
    rw [hidle] at pass
    exact pass
  obtain ⟨sig,rfl,-⟩ := (step_cases hr taken).resumes ht hbegun
  cases hpc : (m.task t).sweeping with
  | true => exact ⟨sig,resume_passes hpc taken⟩
  | false =>
    obtain ⟨c,how,hdone⟩ := PassOf.unsweeping pass hpc
    simp [step,resume,hdone] at taken

theorem sweep_begins (taken : m.step fs cfg (.sweep t) = some m') :
    m' = sweepFrom cfg t m.clock (m.sessions.map Prod.snd) m := by
  simp only [step] at taken
  split_ifs at taken
  cases taken
  rfl

theorem pass_of_run {h : List (Manager D A × Event D A)} {m₀ : Manager D A}
    (run : Machine.Run (step fs cfg) (init cfg) h m) (began : (m₀,.sweep t) ∈ h) :
    (m.task t).PassOf m₀.clock := by
  induction run with
  | start => cases began
  | @next h m e m' run taken ih =>
    have hr := (coherent_of_run run).registry
    rcases List.mem_cons.mp began with hnow | hbefore
    · cases hnow
      rw [sweep_begins taken]
      exact sweepFrom_passOf _ _
    · by_cases ht : e.task = some t
      · obtain ⟨sig,passes⟩ := PassOf.passes hr (ih hbefore) ht taken
        exact passes.passOf (ih hbefore)
      · rw [(step_cases hr taken).others hr ht]
        exact ih hbefore

theorem PassOf.holds {pc : Pc A} (pass : pc.PassOf now) (s : Ref) :
    pc.holds = some s ↔ ∃ b, pc.covering = some (s,b) := by
  cases pc with
  | tryAcquire | deletion | deleted | done => simp [Pc.holds,Pc.covering]
  | _ => cases pass

end Passes

/-- The pass of task `t` rids the registry of `s`: `s` is gone, or still ahead of it, or the pass
was cancelled. -/
structure Rids (s : Ref) (m : Manager D A) (t : TaskId) : Prop where
  made : s < m.next
  gone : m.registered s = true →
    s ∈ (m.task t).ahead ∨ ∃ c, m.task t = .done c .cancelled

/-- At every visit among these moves the lock of `s` was free, and `s`, if it was still registered,
had expired. -/
def Ripe (cfg : Config) (now : ℕ) (s : Ref) (ms : List (Move D A)) : Prop :=
  ∀ m, .visits m s ∈ ms →
    (m.heap s).lock.free = true ∧ (m.registered s = true → m.expired cfg now s = true)

section Rids
variable {fs : Storage D A} {cfg : Config} {m m' : Manager D A} {t : TaskId} {sig : Signal}
  {now : ℕ} {s : Ref}

theorem Rids.setPc {pc : Pc A} (made : s < m.next)
    (gone : m.registered s = true → s ∈ pc.ahead ∨ ∃ c, pc = .done c .cancelled) :
    Rids s (m.setPc t pc) t where
  made := made
  gone hs := by
    rw [setPc_task,if_pos rfl]
    exact gone (by simpa using hs)

/-- Going on over a snapshot that holds every session not yet gone. -/
theorem sweepFrom_rids {left : List Ref} (made : s < m.next)
    (hleft : m.registered s = true → s ∈ left)
    (ripe : Ripe cfg now s (sweepMoves cfg t now left m)) :
    Rids s (sweepFrom cfg t now left m) t := by
  induction left generalizing m with
  | nil =>
    rw [sweepFrom]
    exact .setPc made fun hs => absurd (hleft hs) List.not_mem_nil
  | cons r rest ih =>
    rw [sweepMoves] at ripe
    rw [sweepFrom]
    split_ifs at ripe ⊢ with hfree hexpired
    · apply Rids.setPc
      · exact made
      · exact fun hs => .inl (hleft (by simpa using hs))
    · refine ih made (fun hs => ?_) fun v hv => ripe v ?_
      · have hregistered : m.registered s = true := by simpa using hs
        refine (List.mem_cons.mp (hleft hregistered)).resolve_left ?_
        rintro rfl
        exact hexpired ((ripe m List.mem_cons_self).2 hregistered)
      · exact List.mem_cons_of_mem _ (List.mem_cons_of_mem _ (List.mem_cons_of_mem _ hv))
    · apply Rids.setPc
      · exact made
      · intro hs
        refine .inl ((List.mem_cons.mp (hleft (by simpa using hs))).resolve_left ?_)
        rintro rfl
        exact hfree (ripe m List.mem_cons_self).1

/-- A removal that ended, in whatever way, has rid the registry of its session. -/
theorem Rids.removed {cancelled : Bool} {r : Ref} {rest : List Ref} (hr : Registry cfg m)
    (rids : Rids s m t) (pc : m.task t = .deletion cancelled now r rest) :
    Rids s ((m.afterRemoval r sig).setPc t (.deleted cancelled now r rest)) t := by
  obtain ⟨free,dir,abandoned,he⟩ := afterRemoval_frame m r sig
  refine .setPc ?_ fun hs => .inl ?_
  · rw [he]
    exact rids.made
  · have hpopped := hr.afterRemoval_popped r sig
    have hne : s ≠ r := by
      rintro rfl
      rw [hpopped] at hs
      cases hs
    have hregistered : m.registered s = true := by
      rw [he] at hs
      exact ((hr.pop_registered r s).mp hs).1
    have hahead := rids.gone hregistered
    rw [pc] at hahead
    exact (List.mem_cons.mp (hahead.resolve_right (by simp))).resolve_left hne

theorem Passes.rids {ms : List (Move D A)} (hr : Registry cfg m)
    (pass : (m.task t).PassOf now) (rids : Rids s m t) (ripe : Ripe cfg now s ms) (passes : Passes cfg m t sig m' ms) : Rids s m' t := by
  have hgone := rids.gone
  have made := rids.made
  cases passes with
  | swept pc =>
    rw [pc] at hgone pass
    apply Rids.setPc
    · exact made
    · intro hs
      have hahead := (hgone (by simpa using hs)).resolve_right (by simp)
      exact .inl (List.mem_cons_of_mem _ hahead)
  | skipped pc =>
    rw [pc] at hgone pass
    cases pass
    refine sweepFrom_rids made (fun hs => ?_) fun v hv => ripe v ?_
    · exact (hgone (by simpa using hs)).resolve_right (by simp)
    · exact List.mem_cons_of_mem _ (List.mem_cons_of_mem _ hv)
  | passed pc =>
    rw [pc] at hgone pass
    cases pass
    refine sweepFrom_rids made (fun hs => ?_) ripe
    exact (hgone (by simpa using hs)).resolve_right (by simp)
  | sweepCancelled | ended =>
    apply Rids.setPc
    · exact made
    · exact fun _ => .inr ⟨none,rfl⟩
  | shielded pc =>
    rw [pc] at hgone pass
    refine .setPc made fun hs => .inl ?_
    exact (hgone (by simpa using hs)).resolve_right (by simp)
  | forsaken pc | deleted pc =>
    rw [pc] at pass
    cases pass
    exact rids.removed hr pc
  | went pc =>
    rw [pc] at hgone pass
    cases pass
    refine sweepFrom_rids made (fun hs => ?_) fun v hv => ripe v (List.mem_cons_of_mem _ hv)
    exact (hgone (by simpa using hs)).resolve_right (by simp)

/-- One step of the machine, of whatever task. -/
theorem Rids.next {e : Event D A} (hr : Registry cfg m) (pass : (m.task t).PassOf now)
    (rids : Rids s m t) (ripe : e.task = some t → Ripe cfg now s (m.moves cfg e))
    (taken : m.step fs cfg e = some m') : Rids s m' t := by
  have steps := step_cases hr taken
  by_cases ht : e.task = some t
  · obtain ⟨sig,passes⟩ := PassOf.passes hr pass ht taken
    exact passes.rids hr pass rids (ripe ht)
  · have hforward := steps.forward hr
    have htask := steps.others hr ht
    refine ⟨Nat.lt_of_lt_of_le rids.made hforward.1,fun hs => ?_⟩
    rw [htask]
    exact rids.gone (hforward.2 s rids.made hs)

/-- A whole run, from the step on that began the pass. -/
theorem rids_of_run {h : List (Manager D A × Event D A)} {m₀ : Manager D A}
    (run : Machine.Run (step fs cfg) (init cfg) h m) (began : (m₀,.sweep t) ∈ h)
    (hs : m₀.registered s = true) (ripe : Ripe cfg m₀.clock s (passMoves cfg t h)) :
    Rids s m t := by
  induction run with
  | start => cases began
  | @next h m e m' run taken ih =>
    have hr := (coherent_of_run run).registry
    rw [passMoves_next] at ripe
    have hstep (ht : e.task = some t) : Ripe cfg m₀.clock s (m.moves cfg e) := by
      intro v hv
      exact ripe v (List.mem_append_right _ (by rwa [if_pos ht]))
    rcases List.mem_cons.mp began with hnow | hbefore
    · cases hnow
      rw [sweep_begins taken]
      exact sweepFrom_rids (hr.registered_lt hs) (fun h => hr.registered_iff.mp h) (hstep rfl)
    · have rids := ih hbefore fun v hv => ripe v (List.mem_append_left _ hv)
      exact rids.next hr (pass_of_run run hbefore) hstep taken

/-- What holds of the state at a visit of `s`. -/
def Move.finds (P : Manager D A → Bool) (s : Ref) : Move D A → Bool
  | .visits m r => r != s || P m
  | _ => true

theorem all_finds_iff (P : Manager D A → Bool) (ms : List (Move D A)) :
    ms.all (Move.finds P s) = true ↔ ∀ m, .visits m s ∈ ms → P m = true := by
  rw [List.all_eq_true]
  constructor
  · intro hall v hv
    simpa [Move.finds] using hall _ hv
  · intro hall w hw
    cases w with
    | visits v r =>
      by_cases hr : r = s
      · subst hr
        simpa [Move.finds] using hall v hw
      · simp [Move.finds,hr]
    | _ => rfl

/-- At every visit of the pass the lock of `s` was free, and nobody had used `s` since `m₀`. -/
def FoundUnused (cfg : Config) (t : TaskId) (h : List (Manager D A × Event D A)) (m₀ : Manager D A)
    (s : Ref) : Prop :=
  ∀ m, .visits m s ∈ passMoves cfg t h →
    (m.heap s).lock.free = true ∧ (m.heap s).lastUsed = (m₀.heap s).lastUsed

theorem FoundUnused.ripe {h : List (Manager D A × Event D A)} {m₀ : Manager D A}
    (unused : FoundUnused cfg t h m₀ s) (hexpired : m₀.expired cfg m₀.clock s = true) :
    Ripe cfg m₀.clock s (passMoves cfg t h) := by
  intro v hv
  obtain ⟨hfree,hlast⟩ := unused v hv
  refine ⟨hfree,fun hs => ?_⟩
  simp only [expired,Bool.and_eq_true] at hexpired ⊢
  rw [hlast]
  exact ⟨hs,hexpired.2⟩

/-- Every lock a pass takes is given back exactly once by its end, and never while the removal it
covers runs, unless the pass was cancelled again while it waited for that removal. A pass that ends
without being cancelled rids the registry of every expired session it found free and unused. -/
theorem sweep_pass {h : List (Manager D A × Event D A)} {m₀ : Manager D A}
    (run : Machine.Run (step fs cfg) (init cfg) h m) (began : (m₀,.sweep t) ∈ h) :
    Move.follow none (passMoves cfg t h) = some (m.task t).covering ∧
    (∀ s, m.owner s = some t ↔ ∃ b, (m.task t).covering = some (s,b)) ∧
    (∀ c how, m.task t = .done c how → Move.follow none (passMoves cfg t h) = some none) ∧
    (∀ s, .forsakes s ∈ passMoves cfg t h → ∃ p ∈ h, p.2 = .resume t .cancelled ∧
      ∃ now rest, p.1.task t = .deletion true now s rest) ∧
    ∀ c how, m.task t = .done c how → how ≠ .cancelled → ∀ s, m₀.expired cfg m₀.clock s = true →
      FoundUnused cfg t h m₀ s → m.registered s = false := by
  have hfollow := passMoves_follow (t := t) run
  have pass := pass_of_run run began
  refine ⟨hfollow,?_,?_,?_,?_⟩
  · intro s
    rw [(coherent_of_run run).locks s t]
    exact PassOf.holds pass s
  · intro c how hdone
    rw [hfollow,hdone]
    rfl
  · exact fun s hs => passMoves_forsakes run hs
  · intro c how hdone hhow s hexpired unused
    have hregistered : m₀.registered s = true := by
      simp only [expired,Bool.and_eq_true] at hexpired
      exact hexpired.1
    have rids := rids_of_run run began hregistered (unused.ripe hexpired)
    rw [Bool.eq_false_iff]
    intro hs
    rcases rids.gone hs with hahead | ⟨c',hcancelled⟩
    · rw [hdone] at hahead
      cases hahead
    · rw [hdone] at hcancelled
      cases hcancelled
      exact hhow rfl

end Rids

/-- A pass over two expired sessions. The removal of the first one fails. -/
theorem sweep_pass_failing : ∃ h m m₀,
    Machine.Run (step Storage.log Config.tight) (init Config.tight) h m ∧
      (m₀,.sweep 2) ∈ h ∧ m.task 2 = .done none .finished ∧
        Move.follow none (passMoves Config.tight 2 h) = some none ∧
          m.registered 0 = false ∧ m.registered 1 = false := by
  have hrun : ∃ h m m₀, Machine.replay (step Storage.log Config.tight) [] (init Config.tight)
      [.create 0 .create true,.resume 0 .ok,.create 1 .create true,.resume 1 .ok,.tick 5,
        .sweep 2,.resume 2 .osError,.resume 2 .ok,.resume 2 .ok,.resume 2 .ok] = some (h,m) ∧
      h[4]? = some (m₀,.sweep 2) ∧ m.task 2 = .done none .finished ∧
        [0,1].all (fun s => m₀.expired Config.tight m₀.clock s && (passMoves Config.tight 2 h).all
          (Move.finds (fun v => (v.heap s).lock.free &&
            (v.heap s).lastUsed == (m₀.heap s).lastUsed) s)) = true :=
    ⟨_,_,_,rfl,rfl,rfl,by decide +kernel⟩
  obtain ⟨h,m,m₀,hr,hsweep,hdone,hall⟩ := hrun
  have run := Machine.replay_run hr
  have began := List.mem_of_getElem? hsweep
  obtain ⟨-,-,hbalanced,-,hrid⟩ := sweep_pass run began
  have hgone : ∀ s ∈ [0,1], m.registered s = false := by
    intro s hs
    have hs' := List.all_eq_true.mp hall s hs
    simp only [Bool.and_eq_true] at hs'
    refine hrid none .finished hdone (by simp) s hs'.1 fun v hv => ?_
    simpa using (all_finds_iff _ _).mp hs'.2 v hv
  exact ⟨h,m,m₀,run,began,hdone,hbalanced none .finished hdone,hgone 0 (by simp),hgone 1 (by simp)⟩

/-- A request uses the second expired session while the first one is removed. The pass then finds
its lock free and keeps it. -/
theorem used_session_kept : ¬ ∀ h m m₀ t s,
    Machine.Run (step Storage.log Config.tight) (init Config.tight) h m → (m₀,.sweep t) ∈ h →
      m.task t = .done none .finished → m₀.expired Config.tight m₀.clock s = true →
        (∀ v, .visits v s ∈ passMoves Config.tight t h → (v.heap s).lock.free = true) →
          m.registered s = false := by
  have hrun : ∃ h m m₀, Machine.replay (step Storage.log Config.tight) [] (init Config.tight)
      [.create 0 .create true,.resume 0 .ok,.create 1 .create true,.resume 1 .ok,.tick 5,
        .sweep 2,.request 3 1,.resume 3 .ok,.resume 2 .ok,.resume 2 .ok] = some (h,m) ∧
      h[4]? = some (m₀,.sweep 2) ∧ m.task 2 = .done none .finished ∧
        m₀.expired Config.tight m₀.clock 1 = true ∧ m.registered 1 = true ∧
          (passMoves Config.tight 2 h).all (Move.finds (fun v => (v.heap 1).lock.free) 1) = true :=
    ⟨_,_,_,rfl,rfl,rfl,rfl,rfl,by decide +kernel⟩
  obtain ⟨h,m,m₀,hr,hsweep,hdone,hexpired,hkept,hall⟩ := hrun
  intro hgone
  have hs := hgone h m m₀ 2 1 (Machine.replay_run hr) (List.mem_of_getElem? hsweep) hdone hexpired
    ((all_finds_iff _ _).mp hall)
  rw [hkept] at hs
  cases hs

end Manager
end CodeExecutorApi
