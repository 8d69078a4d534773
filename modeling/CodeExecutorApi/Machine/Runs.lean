import Mathlib.Data.List.Basic

/-! Runs of a machine given by a partial step function, together with the history of
state-event pairs they took. Guards restrict which events a run may take. -/
namespace Machine
variable {σ ε : Type*} {step : σ → ε → Option σ}

/-- A run from `s₀` and everything it did, the latest event first. -/
inductive Run (step : σ → ε → Option σ) (s₀ : σ) : List (σ × ε) → σ → Prop
  | start : Run step s₀ [] s₀
  | next {h s e s'} (run : Run step s₀ h s) (taken : step s e = some s') :
      Run step s₀ ((s,e)::h) s'

/-- The same for a machine whose steps are a relation. -/
inductive Trace (step : σ → ε → σ → Prop) (s₀ : σ) : List (σ × ε) → σ → Prop
  | start : Trace step s₀ [] s₀
  | next {h s e s'} (run : Trace step s₀ h s) (taken : step s e s') : Trace step s₀ ((s,e)::h) s'

/-- Every event of the history met the guard in the state it was taken in. -/
def Guarded (G : σ → ε → Prop) (h : List (σ × ε)) : Prop := ∀ p ∈ h, G p.1 p.2

@[simp] theorem guarded_nil (G : σ → ε → Prop) : Guarded G [] := by simp [Guarded]

@[simp] theorem guarded_cons (G : σ → ε → Prop) (s : σ) (e : ε) (h : List (σ × ε)) :
    Guarded G ((s,e)::h) ↔ G s e ∧ Guarded G h := by simp [Guarded]

instance (G : σ → ε → Prop) [∀ s e, Decidable (G s e)] (h : List (σ × ε)) :
    Decidable (Guarded G h) := inferInstanceAs (Decidable (∀ p ∈ h, G p.1 p.2))

/-- An invariant that every guarded step keeps holds at the end of every guarded run. -/
theorem Run.invariant {G : σ → ε → Prop} {I : σ → Prop} {s₀ : σ} (start : I s₀)
    (keep : ∀ s e s', I s → G s e → step s e = some s' → I s')
    {h : List (σ × ε)} {s : σ} (run : Run step s₀ h s) (hg : Guarded G h) : I s := by
  induction run with
  | start => exact start
  | next run taken ih =>
    obtain ⟨hge,hgh⟩ := (guarded_cons _ _ _ _).mp hg
    exact keep _ _ _ (ih hgh) hge taken

/-- If exactly the guarded steps keep `I`, a run stays inside `I` just when it is guarded. -/
theorem Run.invariant_iff {G : σ → ε → Prop} {I J : σ → Prop} {s₀ : σ} (startI : I s₀)
    (startJ : J s₀) (stepJ : ∀ s e s', J s → step s e = some s' → J s')
    (keep : ∀ s e s', J s → I s → G s e → step s e = some s' → I s')
    (only : ∀ s e s', J s → step s e = some s' → I s' → G s e)
    {h : List (σ × ε)} {s : σ} (run : Run step s₀ h s) :
    (I s ∧ ∀ p ∈ h, I p.1) ↔ Guarded G h := by
  have hall : J s ∧ ((I s ∧ ∀ p ∈ h, I p.1) ↔ Guarded G h) := by
    induction run with
    | start => exact ⟨startJ,by simpa using startI⟩
    | @next h s e s' run taken ih =>
      obtain ⟨hJ,ih⟩ := ih
      refine ⟨stepJ s e s' hJ taken,?_⟩
      rw [guarded_cons,← ih,List.forall_mem_cons]
      constructor
      · exact fun ⟨hI,hs,hp⟩ => ⟨only s e s' hJ taken hI,hs,hp⟩
      · exact fun ⟨hG,hs,hp⟩ => ⟨keep s e s' hJ hs hG taken,hs,hp⟩
  exact hall.2

/-- Every earlier state of a run was itself reached by a run, whose history is a suffix. -/
theorem Run.earlier {s₀ : σ} {h : List (σ × ε)} {s : σ} (run : Run step s₀ h s)
    {p : σ × ε} (hp : p ∈ h) : ∃ h', Run step s₀ h' p.1 ∧ h' <:+ h := by
  induction run with
  | start => simp at hp
  | @next h s e s' run taken ih =>
    rcases List.mem_cons.mp hp with rfl | hp
    · exact ⟨h,run,List.suffix_cons _ _⟩
    · obtain ⟨h',hr,hs⟩ := ih hp
      exact ⟨h',hr,hs.trans (List.suffix_cons _ _)⟩

/-- Runs compose; the later history stands in front. -/
theorem Run.trans {s₀ s₁ s₂ : σ} {h₁ h₂ : List (σ × ε)} (first : Run step s₀ h₁ s₁)
    (second : Run step s₁ h₂ s₂) : Run step s₀ (h₂ ++ h₁) s₂ := by
  induction second with
  | start => exact first
  | next run taken ih => exact ih.next taken

theorem Trace.trans {step : σ → ε → σ → Prop} {s₀ s₁ s₂ : σ} {h₁ h₂ : List (σ × ε)}
    (first : Trace step s₀ h₁ s₁) (second : Trace step s₁ h₂ s₂) :
    Trace step s₀ (h₂ ++ h₁) s₂ := by
  induction second with
  | start => exact first
  | next run taken ih => exact ih.next taken

/-- If from each state that is not the goal a permitted step leads to one that is nearer, the goal is
reached, in at most as many steps as it is away. -/
theorem Run.descend {I : σ → Prop} (G : σ → ε → Prop) (goal : σ → Prop) (due : σ → ℕ)
    (nearer : ∀ s, I s → ¬goal s → ∃ e s', G s e ∧ step s e = some s' ∧ I s' ∧ due s' < due s)
    {s : σ} (hs : I s) :
    ∃ h s', Run step s h s' ∧ Guarded G h ∧ h.length ≤ due s ∧ I s' ∧ goal s' := by
  generalize hn : due s = n
  induction n using Nat.strongRecOn generalizing s with
  | ind n ih =>
    by_cases hgoal : goal s
    · exact ⟨[],s,.start,guarded_nil G,Nat.zero_le _,hs,hgoal⟩
    · obtain ⟨e,s₁,hG,taken,hs₁,hless⟩ := nearer s hs hgoal
      obtain ⟨h,s',run,hguarded,hlength,hs',hgoal'⟩ := ih _ (hn ▸ hless) hs₁ rfl
      refine ⟨h ++ [(s,e)],s',(Run.start.next taken).trans run,?_,?_,hs',hgoal'⟩
      · exact List.forall_mem_append.mpr ⟨hguarded,List.forall_mem_singleton.mpr hG⟩
      · rw [List.length_append,List.length_singleton]
        omega

/-- A run can be cut at each of its steps. -/
theorem Run.cut {s₀ s : σ} {later earlier : List (σ × ε)} {p : σ × ε}
    (run : Run step s₀ (later ++ p :: earlier) s) :
    ∃ t, Run step s₀ earlier p.1 ∧ step p.1 p.2 = some t ∧ Run step t later s := by
  induction later generalizing s with
  | nil =>
    cases run with
    | next run taken => exact ⟨s,run,taken,.start⟩
  | cons r later ih =>
    cases run with
    | next run taken =>
      obtain ⟨t,hearlier,ht,hlater⟩ := ih run
      exact ⟨t,hearlier,ht,hlater.next taken⟩

/-- Replay a list of events, recording the history; a disabled event has no replay. -/
def replay (step : σ → ε → Option σ) : List (σ × ε) → σ → List ε → Option (List (σ × ε) × σ)
  | h,s,[] => some (h,s)
  | h,s,e::es => (step s e).bind fun s' => replay step ((s,e)::h) s' es

theorem replay_run_from {s₀ : σ} {h : List (σ × ε)} {s : σ} (run : Run step s₀ h s)
    {es : List ε} {h' : List (σ × ε)} {s' : σ} (hr : replay step h s es = some (h',s')) :
    Run step s₀ h' s' := by
  induction es generalizing h s with
  | nil =>
    simp only [replay,Option.some.injEq,Prod.mk.injEq] at hr
    obtain ⟨rfl,rfl⟩ := hr
    exact run
  | cons e es ih =>
    simp only [replay,Option.bind_eq_some_iff] at hr
    obtain ⟨t,ht,hr⟩ := hr
    exact ih (run.next ht) hr

/-- A successful replay is a run. -/
theorem replay_run {s₀ : σ} {es : List ε} {h : List (σ × ε)} {s : σ}
    (hr : replay step [] s₀ es = some (h,s)) : Run step s₀ h s :=
  replay_run_from .start hr

end Machine
