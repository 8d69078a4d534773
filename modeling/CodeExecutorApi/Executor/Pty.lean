import CodeExecutorApi.Executor.RunContainer

/-! What becomes of the pty of a container, and what `run_container` returns. -/
namespace CodeExecutorApi
open Python Posix Machine

namespace ContainerRun
variable {maxSize : ℕ} {m m' : ContainerRun} {e : RunEvent}

/-- `run_container` is over, and nobody will close the pty it leaves open: the thread waits for an
event that is never set, or never begins. -/
def Forsaken (m : ContainerRun) : Prop :=
  m.pc.isOver = true ∧ ∃ t, m.pty = some t ∧ t.slaveOpen = true ∧
    (t.stopEvt = false ∨ m.readTask = .dropped)

theorem not_forsaken_of_running (h : m.pc.isOver = false) : ¬m.Forsaken := fun hf => by
  rw [hf.1] at h
  cases h

theorem not_forsaken_finish (h : Sound maxSize m) (r : Bool) : ¬(m.finish r).Forsaken := by
  unfold finish
  split_ifs with htask
  · rw [h.task.mp htask]
    rintro ⟨-,t,hpty,-⟩
    cases hpty
  · exact not_forsaken_of_running rfl

/-- A step of the pty is no way in and no way out. -/
theorem forsaken_terminal_iff (h : Sound maxSize m) {e : TerminalEvent} {t t' : Terminal}
    (hallowed : m.allows e = true) (hpty : m.pty = some t) (htaken : t.step maxSize e = some t') :
    ({ m with pty := some t' } : ContainerRun).Forsaken ↔ m.Forsaken := by
  have hturn := h.turn hallowed hpty htaken
  constructor
  · rintro ⟨hover,_,⟨⟩,hopen,hlost⟩
    refine ⟨hover,t,hpty,?_,hturn.evt ▸ hlost⟩
    by_contra hno
    rw [hturn.shut (by simpa using hno)] at hopen
    cases hopen
  · rintro ⟨hover,u,hu,hopen,hlost⟩
    cases hpty.symm.trans hu
    refine ⟨hover,t',rfl,?_,hturn.evt.symm ▸ hlost⟩
    rcases hlost with hevt | hdropped
    · by_contra hno
      rw [hturn.closes hopen (by simpa using hno)] at hevt
      cases hevt
    · have he : e.ofThread = false := by
        by_contra he
        rw [started_of_allows hallowed (by simpa using he)] at hdropped
        cases hdropped
      exact (hturn.stays he).2.trans hopen

/-- Exactly the steps that forsake the pty lead to where it is forsaken, and no step leads out. -/
theorem forsaken_step_iff (h : Sound maxSize m) (hstep : m.step maxSize e = some m') :
    m'.Forsaken ↔ m.Forsaken ∨ m.forsakes e = true := by
  have hrunning {pc : RunPc} (hpc : m.pc = pc) (hover : pc.isOver = false)
      (hgoes : m.forsakes e = false) : ¬(m.Forsaken ∨ m.forsakes e = true) := by
    rintro (hf | hf)
    · exact not_forsaken_of_running (hpc ▸ hover) hf
    · rw [hgoes] at hf
      cases hf
  have hgone (hf : m.forsakes e = false) (hm : m'.Forsaken ↔ m.Forsaken) :
      m'.Forsaken ↔ m.Forsaken ∨ m.forsakes e = true := by
    rw [hm,hf]
    simp
  cases step_cases hstep with
  | called pc => exact iff_of_false (not_forsaken_of_running rfl) (hrunning pc rfl rfl)
  | uncalled pc => exact iff_of_false (not_forsaken_finish h true) (hrunning pc rfl rfl)
  | spawned pc | overdue pc | interrupted pc =>
    exact iff_of_false (not_forsaken_of_running rfl) (hrunning pc rfl (by simp [forsakes,pc]))
  | unspawned pc | cancelled pc =>
    exact iff_of_false (not_forsaken_finish h true) (hrunning pc rfl (by simp [forsakes,pc]))
  | @exited status pc process =>
    have hset : Sound maxSize { m with returnCode := status } := h.of_eq rfl rfl rfl
    exact iff_of_false (not_forsaken_finish hset false) (hrunning pc rfl (by simp [forsakes,pc]))
  | late pc =>
    have hset : Sound maxSize { m with timedOut := true } := h.of_eq rfl rfl rfl
    exact iff_of_false (not_forsaken_finish hset false) (hrunning pc rfl (by simp [forsakes,pc]))
  | removes pc goes next =>
    exact iff_of_false (not_forsaken_of_running (RunPc.over_of_removing next).2.1)
      (hrunning rfl (RunPc.over_of_removing pc).2.1 goes)
  | stops pc goes =>
    exact iff_of_false (not_forsaken_finish h _) (hrunning rfl (RunPc.over_of_removing pc).2.1 goes)
  | forsaken pc ends =>
    obtain ⟨hidle,hover,hstop⟩ := RunPc.over_of_removing pc
    refine iff_of_true ⟨rfl,?_⟩ (.inr ends)
    have htask := h.tended hidle hover
    obtain ⟨t,ht⟩ : ∃ t, m.pty = some t := by
      refine Option.ne_none_iff_exists'.mp fun hnone => ?_
      rw [h.task.mpr hnone] at htask
      simp at htask
    have hevt : t.stopEvt = false := (h.evt t ht hover).trans hstop
    refine ⟨t,ht,(h.attended t ht).drains.slave fun out hout => ?_,.inl hevt⟩
    have hset : t.stopEvt = true := ((h.attended t ht).drains.finished out hout).2
    rw [hevt] at hset
    cases hset
  | @read r t output pc pty finished =>
    have hclosed := (h.attended t pty).closed output finished
    refine iff_of_false ?_ (hrunning pc rfl (by simp [forsakes,pc]))
    rintro ⟨-,u,hu,hopen,-⟩
    cases pty.symm.trans hu
    rw [hclosed] at hopen
    cases hopen
  | @unread r t errno pc pty failed => exact absurd failed ((h.attended t pty).drains.failed errno)
  | dropped pc =>
    have htask := h.tended (by simp [pc]) (by simp [pc,RunPc.isOver])
    have hevt {t : Terminal} (ht : m.pty = some t) : t.stopEvt = true :=
      (h.evt t ht (by simp [pc,RunPc.isOver])).trans (by simp [pc,RunPc.stopping])
    rcases htask with htask | htask
    · refine iff_of_true ⟨rfl,?_⟩ (.inr (by simp [forsakes,pc,htask]))
      obtain ⟨t,ht⟩ : ∃ t, m.pty = some t := by
        refine Option.ne_none_iff_exists'.mp fun hnone => ?_
        rw [h.task.mpr hnone] at htask
        cases htask
      have hselect : t.pc = .select := h.unread t ht (by simp [htask])
      refine ⟨t,ht,(h.attended t ht).drains.slave fun out hout => ?_,.inr (by simp [htask])⟩
      cases hselect.symm.trans hout
    · refine iff_of_false ?_ (hrunning pc rfl (by simp [forsakes,pc,htask]))
      rintro ⟨-,t,ht,-,hlost | hlost⟩
      · rw [hevt ht] at hlost
        cases hlost
      · simp [htask] at hlost
  | exits alive => exact hgone rfl Iff.rfl
  | starts task =>
    refine hgone rfl ⟨?_,?_⟩
    · rintro ⟨hover,t,ht,hopen,hlost | hlost⟩
      · exact ⟨hover,t,ht,hopen,.inl hlost⟩
      · cases hlost
    · rintro ⟨hover,t,ht,hopen,hlost | hlost⟩
      · exact ⟨hover,t,ht,hopen,.inl hlost⟩
      · rw [task] at hlost
        cases hlost
  | terminal allowed pty taken => exact hgone rfl (forsaken_terminal_iff h allowed pty taken)

theorem forsaken_iff {h : List (ContainerRun × RunEvent)} (run : Run (step maxSize) init h m) :
    m.Forsaken ↔ ∃ p ∈ h, p.1.forsakes p.2 = true := by
  induction run with
  | start => exact iff_of_false (not_forsaken_of_running rfl) (by simp)
  | next run taken ih => simp [forsaken_step_iff (Sound.of_run run) taken,ih,or_comm]

theorem Forsaken.of_run {later : List (ContainerRun × RunEvent)} (hs : Sound maxSize m)
    (hf : m.Forsaken) (run : Run (step maxSize) m later m') : Sound maxSize m' ∧ m'.Forsaken := by
  induction run with
  | start => exact ⟨hs,hf⟩
  | next run taken ih => exact ⟨ih.1.next taken,(forsaken_step_iff ih.1 taken).mpr (.inl ih.2)⟩

/-- Once `run_container` is over without having forsaken its pty, the pty is closed or its task has
been told to stop. -/
theorem Sound.stopped (h : Sound maxSize m) (hover : m.pc.isOver = true) (hf : ¬m.Forsaken)
    {t : Terminal} (hpty : m.pty = some t) :
    t.stopEvt = true ∧ (t.slaveOpen = true → m.readTask = .scheduled ∨ m.readTask = .started) := by
  have ht := h.attended t hpty
  cases hopen : t.slaveOpen with
  | false =>
    refine ⟨?_,fun h => by cases h⟩
    by_contra hevt
    have hslave : t.slaveOpen = true :=
      ht.drains.slave fun out hout => hevt (ht.drains.finished out hout).2
    rw [hopen] at hslave
    cases hslave
  | true =>
    refine ⟨?_,fun _ => ?_⟩
    · by_contra hevt
      exact hf ⟨hover,t,hpty,hopen,.inl (by simpa using hevt)⟩
    · cases htask : m.readTask with
      | none =>
        rw [h.task.mp htask] at hpty
        cases hpty
      | scheduled => exact .inl rfl
      | started => exact .inr rfl
      | dropped => exact absurd ⟨hover,t,hpty,hopen,.inr htask⟩ hf

theorem forsakes_of_isOver (h : m.pc.isOver = true) (e : RunEvent) : m.forsakes e = false := by
  cases e with
  | resume sig => cases hpc : m.pc <;> simp [forsakes,hpc,RunPc.isOver] at h ⊢
  | call | processExit | threadStart | terminal => rfl

/-- After `run_container` the steps of a thread that was told to stop are numbered, whatever else goes
on. -/
theorem left_of_run {later : List (ContainerRun × RunEvent)} (hs : Sound maxSize m)
    (hover : m.pc.isOver = true) (hf : ¬m.Forsaken) (run : Run (step maxSize) m later m') :
    Sound maxSize m' ∧ m'.pc.isOver = true ∧ ¬m'.Forsaken ∧
      m'.left + later.countP (·.2.ofThread) + 2 * m.written ≤ m.left + 2 * m'.written := by
  induction run with
  | start => exact ⟨hs,hover,hf,by simp⟩
  | @next later m₁ e m₂ run taken ih =>
    obtain ⟨hs₁,hover₁,hf₁,hle⟩ := ih
    have hidle {pc : RunPc} (hpc : m₁.pc = pc) : pc.isOver = true := hpc ▸ hover₁
    have hf₂ : ¬m₂.Forsaken := by
      rw [forsaken_step_iff hs₁ taken,forsakes_of_isOver hover₁]
      simpa using hf₁
    have hcount : ((m₁,e)::later).countP (·.2.ofThread) =
        later.countP (·.2.ofThread) + e.ofThread.toNat := by
      rw [List.countP_cons]
      cases e.ofThread <;> rfl
    rw [hcount]
    refine ⟨hs₁.next taken,?_⟩
    cases step_cases taken with
    | called pc | uncalled pc | spawned pc | unspawned pc | exited pc | overdue pc | late pc
    | interrupted pc | cancelled pc | read pc | unread pc | dropped pc => cases hidle pc
    | removes pc | stops pc | forsaken pc =>
      rw [(RunPc.over_of_removing pc).2.1] at hover₁
      cases hover₁
    | exits | starts => exact ⟨hover₁,hf₂,hle⟩
    | @terminal e t t' allowed pty htaken =>
      refine ⟨hover₁,hf₂,?_⟩
      have hleft := (hs₁.turn allowed pty htaken).left (hs₁.stopped hover₁ hf₁ pty).1
      simp only [ContainerRun.left,written,pty,Option.map_some,Option.getD_some] at hle ⊢
      change t'.left + (_ + e.ofThread.toNat) + _ ≤ _
      omega

theorem left_le (m : ContainerRun) : m.left ≤ 2 * m.pending + 2 := by
  unfold ContainerRun.left pending
  cases m.pty with
  | none => simp
  | some t => exact t.left_le

theorem step_terminal {e : TerminalEvent} {t t' : Terminal} (htask : m.readTask = .started)
    (hpty : m.pty = some t) (he : e.ofThread = true) (htaken : t.step maxSize e = some t') :
    m.step maxSize (.terminal e) = some { m with pty := some t' } := by
  have hallowed : m.allows e = true := by
    cases e with
    | write | exit | set => cases he
    | select | stopTest | read => simp [allows,htask]
  simp only [step,if_pos hallowed,hpty,Option.bind_some,htaken,Option.map_some]

/-- A thread that was told to stop can go on to close the pty. -/
theorem exists_closed (hs : Sound maxSize m) {t : Terminal} (hpty : m.pty = some t)
    (hevt : t.stopEvt = true) (htask : m.readTask = .started) :
    ∃ later m', Run (step maxSize) m later m' ∧ m'.ptyOpen = false := by
  induction hn : t.left using Nat.strong_induction_on generalizing m t with
  | _ n ih =>
    cases hopen : t.slaveOpen with
    | false => exact ⟨[],m,.start,by simp [ptyOpen,hpty,hopen]⟩
    | true =>
      obtain ⟨e,t',he,htaken⟩ := (hs.attended t hpty).enabled hopen
      have hstep := step_terminal htask hpty he htaken
      have hturn := (hs.attended t hpty).turn (by rintro rfl; cases he) htaken
      have hlt : t'.left < n := by
        have hleft := hturn.left hevt
        rw [he,hturn.written he,Bool.toNat_true] at hleft
        omega
      obtain ⟨later,m',run,hclosed⟩ := ih _ hlt (hs.next hstep) rfl (hturn.evt.trans hevt) htask rfl
      exact ⟨_,m',(Run.start.next hstep).trans run,hclosed⟩

/-- In every interleaving of `run_container` with its reader thread, with podman and with the
container, the pty stays open for ever after it is over exactly if a step forsook it. Otherwise the
thread has only so many steps left for what it has not read and for what is still written, and can
take each of them. -/
theorem pty_leaked_iff {h : List (ContainerRun × RunEvent)} (run : Run (step maxSize) init h m)
    (hover : m.pc.isOver = true) :
    ((∀ later m', Run (step maxSize) m later m' → m'.ptyOpen = true) ↔
      ∃ p ∈ h, p.1.forsakes p.2 = true) ∧
    ((∀ p ∈ h, p.1.forsakes p.2 = false) → ∀ later m', Run (step maxSize) m later m' →
      later.countP (·.2.ofThread) ≤ 2 * (m.pending + (m'.written - m.written)) + 2 ∧
      (m'.ptyOpen = true → ∃ e m'', (e = .threadStart ∨ e.ofThread = true) ∧
        m'.step maxSize e = some m'')) := by
  have hs := Sound.of_run run
  rw [← forsaken_iff run]
  refine ⟨⟨fun hleak => ?_,fun hf later m' hrun => ?_⟩,fun hkept later m' hrun => ?_⟩
  · by_contra hf
    have hopen := hleak [] m .start
    cases hpty : m.pty with
    | none => simp [ptyOpen,hpty] at hopen
    | some t =>
      obtain ⟨hevt,htask⟩ := hs.stopped hover hf hpty
      rcases htask (by simpa [ptyOpen,hpty] using hopen) with htask | htask
      · have hstep : m.step maxSize .threadStart = some { m with readTask := .started } := by
          rw [step,if_pos htask]
        obtain ⟨later,m',hrun,hclosed⟩ := exists_closed (hs.next hstep) hpty hevt rfl
        rw [hleak _ m' ((Run.start.next hstep).trans hrun)] at hclosed
        cases hclosed
      · obtain ⟨later,m',hrun,hclosed⟩ := exists_closed hs hpty hevt htask
        rw [hleak later m' hrun] at hclosed
        cases hclosed
  · obtain ⟨-,-,t,hpty,hopen,-⟩ := hf.of_run hs hrun
    simp [ptyOpen,hpty,hopen]
  · have hf : ¬m.Forsaken := by
      rw [forsaken_iff run]
      rintro ⟨p,hp,hpf⟩
      rw [hkept p hp] at hpf
      cases hpf
    obtain ⟨hs',hover',hf',hle⟩ := left_of_run hs hover hf hrun
    refine ⟨?_,fun hopen => ?_⟩
    · have := m.left_le
      omega
    · cases hpty : m'.pty with
      | none => simp [ptyOpen,hpty] at hopen
      | some t =>
        have hslave : t.slaveOpen = true := by simpa [ptyOpen,hpty] using hopen
        rcases (hs'.stopped hover' hf' hpty).2 hslave with htask | htask
        · exact ⟨.threadStart,_,.inl rfl,by rw [step,if_pos htask]⟩
        · obtain ⟨e,t',he,htaken⟩ := (hs'.attended t hpty).enabled hslave
          exact ⟨.terminal e,_,.inr he,step_terminal htask hpty he htaken⟩

/-- A run that times out, and is cancelled while the container is being removed. -/
theorem pty_leaked_iff_cancelled_removal : ∃ h m, Run (step 9) init h m ∧ m.pc = .raised ∧
    ∀ later m', Run (step 9) m later m' → m'.ptyOpen = true := by
  have hr : replay (step 9) [] init [.call .ok,.threadStart,.resume .ok,.resume .timeout,.resume .ok,
      .resume .cancelled] = some (_,_) := rfl
  exact ⟨_,_,replay_run hr,rfl,(pty_leaked_iff (replay_run hr) rfl).1.mpr (by decide)⟩

/-- What the variables of `run_container` say of the run so far. -/
structure Reported (h : List (ContainerRun × RunEvent)) (m : ContainerRun) : Prop where
  early : m.pc = .idle ∨ m.pc = .spawn ∨ m.pc = .wait → m.timedOut = false ∧ m.returnCode = -1
  timedOut : m.timedOut = true ↔ ∃ p ∈ h, p.1.pc = .wait ∧ p.2 = .resume .timeout
  noCode : m.timedOut = true → m.returnCode = -1
  removing : m.pc.removing = some false → m.timedOut = true
  code : m.pc = .readOutput false → m.timedOut = false → m.process = some (some m.returnCode)
  returned : ∀ r, m.pc = .returned r → ∃ t output, m.pty = some t ∧ t.pc = .finished output ∧
    r = m.result output ∧ (m.timedOut = false → m.process = some (some m.returnCode))

theorem reported_init : Reported [] init where
  early _ := ⟨rfl,rfl⟩
  timedOut := by simp [init]
  noCode h := by cases h
  removing h := by cases h
  code h := by cases h
  returned _ h := by cases h

/-- With an exception on its way out, or out. -/
def raising (m : ContainerRun) : Prop :=
  m.pc.removing = some true ∨ m.pc = .readOutput true ∨ m.pc = .raised

@[simp] theorem finish_timedOut (m : ContainerRun) (r : Bool) :
    (m.finish r).timedOut = m.timedOut := by
  unfold finish
  split_ifs <;> rfl

@[simp] theorem finish_returnCode (m : ContainerRun) (r : Bool) :
    (m.finish r).returnCode = m.returnCode := by
  unfold finish
  split_ifs <;> rfl

theorem raising_finish (m : ContainerRun) : (m.finish true).raising := by
  unfold finish
  split_ifs
  · exact .inr (.inr rfl)
  · exact .inr (.inl rfl)

variable {h : List (ContainerRun × RunEvent)}

theorem timedOut_cons : (∃ p ∈ (m,e)::h, p.1.pc = .wait ∧ p.2 = .resume .timeout) ↔
    (m.pc = .wait ∧ e = .resume .timeout) ∨ ∃ p ∈ h, p.1.pc = .wait ∧ p.2 = .resume .timeout := by
  simp

/-- Once an exception is on its way the variables are not looked at any more. -/
theorem Reported.raise (hr : Reported h m) (hraising : m'.raising) (htimed : m'.timedOut = m.timedOut)
    (hcode : m'.returnCode = m.returnCode) (he : m.pc = .wait → e ≠ .resume .timeout) :
    Reported ((m,e)::h) m' := by
  have hpc {pc : RunPc} (hp : m'.pc = pc) :
      pc.removing = some true ∨ pc = .readOutput true ∨ pc = .raised := hp ▸ hraising
  constructor
  · rintro (hp | hp | hp)
    all_goals
      have := hpc hp
      simp [RunPc.removing] at this
  · rw [timedOut_cons,htimed,hr.timedOut]
    exact ⟨.inr,fun h => h.resolve_left fun hw => he hw.1 hw.2⟩
  · rw [htimed,hcode]
    exact hr.noCode
  · intro hp
    rcases hraising with hraising | hraising | hraising
    · rw [hraising] at hp
      cases hp
    all_goals
      rw [hraising] at hp
      cases hp
  · intro hp
    have := hpc hp
    simp [RunPc.removing] at this
  · intro r hp
    have := hpc hp
    simp [RunPc.removing] at this

/-- To the output, with the return code or after the time-out. -/
theorem reported_finish {timedOut : Bool} {status : ℤ}
    (htimed : timedOut = true ↔ ∃ p ∈ (m,e)::h, p.1.pc = .wait ∧ p.2 = .resume .timeout)
    (hnone : timedOut = true → status = -1)
    (hsome : timedOut = false → m.process = some (some status)) :
    Reported ((m,e)::h) ({ m with timedOut := timedOut, returnCode := status }.finish false) := by
  unfold ContainerRun.finish
  split_ifs
  · exact ⟨by simp,htimed,hnone,by simp [RunPc.removing],by simp,by simp⟩
  · exact ⟨by simp,htimed,hnone,by simp [RunPc.removing],fun _ => hsome,by simp⟩

theorem Reported.next (hs : Sound maxSize m) (hr : Reported h m) (hstep : m.step maxSize e = some m') :
    Reported ((m,e)::h) m' := by
  have hearly {pc : RunPc} (hpc : m.pc = pc) (hp : pc = .idle ∨ pc = .spawn ∨ pc = .wait) :=
    hr.early (hpc ▸ hp)
  have hsame (he : m.pc = .wait → e ≠ .resume .timeout) :
      m.timedOut = true ↔ ∃ p ∈ (m,e)::h, p.1.pc = .wait ∧ p.2 = .resume .timeout := by
    rw [timedOut_cons,hr.timedOut]
    exact ⟨.inr,fun h => h.resolve_left fun hw => he hw.1 hw.2⟩
  cases step_cases hstep with
  | called pc =>
    exact ⟨fun _ => hearly pc (by simp),hsame (by simp [pc]),hr.noCode,by simp [RunPc.removing],
      by simp,by simp⟩
  | spawned pc =>
    exact ⟨fun _ => hearly pc (by simp),hsame (by simp [pc]),hr.noCode,by simp [RunPc.removing],
      by simp,by simp⟩
  | uncalled pc | unspawned pc =>
    exact hr.raise (raising_finish m) (by simp) (by simp) (by simp [pc])
  | cancelled pc =>
    exact hr.raise (raising_finish m) (by simp) (by simp) (by simp)
  | interrupted pc => exact hr.raise (.inl rfl) rfl rfl (by simp)
  | @exited status pc process =>
    obtain ⟨htimed,-⟩ := hearly pc (by simp)
    refine reported_finish (hsame (by simp)) (fun h => ?_) fun _ => process
    rw [htimed] at h
    cases h
  | overdue pc =>
    refine ⟨by simp,?_,fun _ => (hearly pc (by simp)).2,fun _ => rfl,by simp,by simp⟩
    exact iff_of_true rfl ⟨_,List.mem_cons_self,pc,rfl⟩
  | late pc =>
    exact reported_finish (iff_of_true rfl ⟨_,List.mem_cons_self,pc,rfl⟩)
      (fun _ => (hearly pc (by simp)).2) fun h => by cases h
  | @removes sig r pc' pc _ next =>
    have hw : m.pc = .wait → RunEvent.resume sig ≠ .resume .timeout := fun hp => by
      rw [hp] at pc
      cases pc
    cases r with
    | true => exact hr.raise (.inl next) rfl rfl hw
    | false =>
      have hpc {p : RunPc} (hp : pc' = p) : p.removing = some false := hp ▸ next
      refine ⟨?_,hsame hw,hr.noCode,fun _ => hr.removing pc,fun hp => ?_,fun r hp => ?_⟩
      · rintro (hp | hp | hp)
        all_goals cases hpc hp
      · cases hpc hp
      · cases hpc hp
  | @stops sig r pc _ =>
    have hw : m.pc = .wait → RunEvent.resume sig ≠ .resume .timeout := fun hp => by
      rw [hp] at pc
      cases pc
    cases r with
    | true => exact hr.raise (raising_finish m) (by simp) (by simp) hw
    | false =>
      refine reported_finish (hsame hw) hr.noCode fun h => ?_
      rw [hr.removing pc] at h
      cases h
  | forsaken pc _ =>
    refine hr.raise (.inr (.inr rfl)) rfl rfl fun hp => ?_
    rw [hp] at pc
    cases pc
  | unread pc | dropped pc => exact hr.raise (.inr (.inr rfl)) rfl rfl (by simp [pc])
  | @read r t output pc pty finished =>
    cases r with
    | true => exact hr.raise (.inr (.inr rfl)) rfl rfl (by simp [pc])
    | false =>
      refine ⟨by simp [setPc],hsame (by simp [pc]),hr.noCode,by simp [setPc,RunPc.removing],
        by simp [setPc],fun r hp => ?_⟩
      cases hp
      exact ⟨t,output,pty,finished,rfl,hr.code pc⟩
  | exits alive =>
    have hcode (hc : m.process = some (some m.returnCode)) : False := by
      rw [alive] at hc
      cases hc
    refine ⟨hr.early,hsame (by simp),hr.noCode,hr.removing,
      fun hp ht => (hcode (hr.code hp ht)).elim,fun r hp => ?_⟩
    obtain ⟨t,output,hpty,hfinished,hresult,hc⟩ := hr.returned r hp
    exact ⟨t,output,hpty,hfinished,hresult,fun ht => (hcode (hc ht)).elim⟩
  | starts task =>
    exact ⟨hr.early,hsame (by simp),hr.noCode,hr.removing,hr.code,hr.returned⟩
  | @terminal e t t' allowed pty taken =>
    refine ⟨hr.early,hsame (by simp),hr.noCode,hr.removing,hr.code,fun r hp => ?_⟩
    obtain ⟨u,output,hpty,hfinished,hresult,hc⟩ := hr.returned r hp
    cases pty.symm.trans hpty
    -- a thread that has finished takes no step
    have he : e.ofThread = false := by
      cases e with
      | write | exit | set => rfl
      | select | stopTest | read => simp [Terminal.step,hfinished] at taken
    exact ⟨t',output,rfl,((hs.turn allowed pty taken).stays he).1.trans hfinished,hresult,hc⟩

theorem Reported.of_run (run : Run (step maxSize) init h m) : Reported h m := by
  induction run with
  | start => exact reported_init
  | next run taken ih => exact ih.next (Sound.of_run run) taken

/-- A result that is returned says what happened: the pty is closed, the output is what was read, which
is all that the container wrote but what is still queued, cut off at the cap, and the return code is
that of podman unless the wait timed out. -/
theorem result_reported (run : Run (step maxSize) init h m) {r : ExecutionResult}
    (hr : m.pc = .returned r) :
    m.ptyOpen = false ∧
      (∃ t consumed, m.pty = some t ∧ t.written = consumed ++ t.queued ∧
        r.output = trimRight (fsdecode (consumed.take maxSize))) ∧
      (r.timedOut = true ↔ ∃ p ∈ h, p.1.pc = .wait ∧ p.2 = .resume .timeout) ∧
      (r.timedOut = true → r.returnCode = -1) ∧
      (r.timedOut = false → m.process = some (some r.returnCode)) := by
  have hs := Sound.of_run run
  have hrep := Reported.of_run run
  obtain ⟨t,output,hpty,hfinished,rfl,hcode⟩ := hrep.returned r hr
  have ht := hs.attended t hpty
  obtain ⟨consumed,hwritten,houtput⟩ := ht.drains.output
  have hout : output = t.output := (ht.drains.finished output hfinished).1
  refine ⟨by simp [ptyOpen,hpty,ht.closed output hfinished],⟨t,consumed,hpty,hwritten,?_⟩,
    hrep.timedOut,hrep.noCode,hcode⟩
  rw [result,hout]
  exact congrArg (fun o => trimRight (fsdecode o)) houtput

/-- A container that writes one byte and exits with status 3. -/
theorem result_reported_exit : ∃ h m, Run (step 9) init h m ∧
    m.pc = .returned ⟨[0x61],3,false⟩ ∧ m.ptyOpen = false := by
  have hr : replay (step 9) [] init [.call .ok,.threadStart,.resume .ok,.terminal (.write [0x61]),
      .terminal .exit,.processExit 3,.resume .ok,.terminal .select,.terminal (.read 1),
      .terminal .select,.terminal .stopTest,.resume .ok] = some (_,_) := rfl
  exact ⟨_,_,replay_run hr,by decide,(result_reported (replay_run hr) (by rfl)).1⟩

end ContainerRun
end CodeExecutorApi
