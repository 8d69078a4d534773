import CodeExecutorApi.Machine.Runs
import CodeExecutorApi.Posix.Kernel

/-! The output of a run: the reader thread at the master end of the pty, the container that
writes at the slave end, and the event that `run_container` sets once the container is gone. -/
namespace CodeExecutorApi
open Posix Machine

/-- Where `read_max_and_close` stands in its loop. -/
inductive ReaderPc
  | select
  | stopTest
  | read
  | finished (output : Bytes)
  | failed (errno : Errno)
  deriving DecidableEq, Repr

/-- The pty with both of its ends. `queued` is what was written and not yet read, and `output` is
the reader's `BytesIO`. -/
structure Terminal where
  queued : Bytes
  slaveOpen : Bool
  exited : Bool
  stopEvt : Bool
  output : Bytes
  pc : ReaderPc
  written : Bytes
  deriving DecidableEq, Repr

inductive TerminalEvent
  | write (bytes : Bytes)
  | exit
  | set
  | select
  | stopTest
  | read (n : ℕ)
  deriving DecidableEq, Repr

namespace Terminal

/-- The terminal when the reader thread is started. -/
def opened : Terminal := ⟨[],true,false,false,[],.select,[]⟩

/-- The container holds the slave end until it exits, this process until the reader closes it. -/
def hungUp (t : Terminal) : Bool := t.exited && !t.slaveOpen

/-- The way out of the loop: the `finally` closes both descriptors. -/
def close (t : Terminal) (pc : ReaderPc) : Terminal := { t with slaveOpen := false, pc := pc }

/-- What `os.read` returns when asked for up to 4096 bytes and given the next `n`. -/
def osRead (t : Terminal) (n : ℕ) : Option (Except Errno Bytes) :=
  if t.queued ≠ [] then
    if 0 < n ∧ n ≤ t.queued.length ∧ n ≤ 4096 then some (.ok (t.queued.take n)) else none
  else if t.hungUp then some (.error .eio)
  else none

/-- The rest of one turn of the loop after `os.read`. -/
def afterRead (maxSize : ℕ) (t : Terminal) : Except Errno Bytes → Terminal
  | .error e => if e = .eio then t.close (.finished t.output) else t.close (.failed e)
  | .ok chunk =>
    if chunk = [] then t.close (.finished t.output)
    else
      let output :=
        if t.output.length < maxSize then t.output ++ chunk.take (maxSize - t.output.length)
        else t.output
      { t with queued := t.queued.drop chunk.length, output := output, pc := .select }

def step (maxSize : ℕ) (t : Terminal) : TerminalEvent → Option Terminal
  | .write bytes =>
    if t.exited then none
    else some { t with queued := t.queued ++ bytes, written := t.written ++ bytes }
  | .exit => if t.exited then none else some { t with exited := true }
  | .set => if t.exited && !t.stopEvt then some { t with stopEvt := true } else none
  | .select =>
    if t.pc = .select then
      -- the time-out passes with nothing to read
      some { t with pc := if t.queued ≠ [] ∨ t.hungUp then .read else .stopTest }
    else none
  | .stopTest =>
    if t.pc = .stopTest then
      if t.stopEvt then some (t.close (.finished t.output)) else some { t with pc := .select }
    else none
  | .read n =>
    if t.pc = .read then (t.osRead n).map (t.afterRead maxSize) else none

/-- What holds of the terminal throughout: the bytes read are cut off at the cap, and the reader
never sees the end of the file, since it holds the slave end itself. -/
structure Draining (maxSize : ℕ) (t : Terminal) : Prop where
  output : ∃ consumed, t.written = consumed ++ t.queued ∧ t.output = consumed.take maxSize
  reading : t.pc = .read → t.queued ≠ []
  slave : (∀ out, t.pc ≠ .finished out) → t.slaveOpen = true
  stopped : t.stopEvt = true → t.exited = true
  finished : ∀ out, t.pc = .finished out → out = t.output ∧ t.stopEvt = true
  failed : ∀ e, t.pc ≠ .failed e

theorem draining_opened (maxSize : ℕ) : Draining maxSize opened :=
  ⟨⟨[],rfl,by simp [opened]⟩,nofun,fun _ => rfl,nofun,nofun,nofun⟩

/-- What a step can do to a terminal in use. -/
inductive Steps (maxSize : ℕ) (t : Terminal) : TerminalEvent → Terminal → Prop
  | write (bytes) (runs : t.exited = false) : Steps maxSize t (.write bytes)
      { t with queued := t.queued ++ bytes, written := t.written ++ bytes }
  | exit (runs : t.exited = false) : Steps maxSize t .exit { t with exited := true }
  | set (gone : t.exited = true) (fresh : t.stopEvt = false) :
      Steps maxSize t .set { t with stopEvt := true }
  | ready (pc : t.pc = .select) (some : t.queued ≠ []) : Steps maxSize t .select { t with pc := .read }
  | timeout (pc : t.pc = .select) (none : t.queued = []) :
      Steps maxSize t .select { t with pc := .stopTest }
  | goesOn (pc : t.pc = .stopTest) (runs : t.stopEvt = false) :
      Steps maxSize t .stopTest { t with pc := .select }
  | stops (pc : t.pc = .stopTest) (gone : t.stopEvt = true) :
      Steps maxSize t .stopTest (t.close (.finished t.output))
  | reads (n) (pc : t.pc = .read) (pos : 0 < n) (le : n ≤ t.queued.length) :
      Steps maxSize t (.read n) { t with
        queued := t.queued.drop n
        output := t.output ++ (t.queued.take n).take (maxSize - t.output.length)
        pc := .select }

variable {maxSize : ℕ} {t t' : Terminal} {e : TerminalEvent}

theorem Draining.not_hungUp (ht : Draining maxSize t) (hpc : ∀ out, t.pc ≠ .finished out) :
    t.hungUp = false := by
  rw [hungUp,ht.slave hpc]
  simp

/-- A reader whose buffer is full appends nothing, so the branch at the cap makes no difference. -/
theorem afterRead_chunk {chunk : Bytes} (hchunk : chunk ≠ []) : t.afterRead maxSize (.ok chunk) =
    { t with
      queued := t.queued.drop chunk.length
      output := t.output ++ chunk.take (maxSize - t.output.length)
      pc := .select } := by
  rw [afterRead,if_neg hchunk]
  split_ifs with hroom
  · rfl
  · have hfull : maxSize - t.output.length = 0 := by omega
    rw [hfull,List.take_zero,List.append_nil]

theorem step_cases (ht : Draining maxSize t) (hstep : t.step maxSize e = some t') :
    Steps maxSize t e t' := by
  cases e with
  | write bytes =>
    simp only [step] at hstep
    split_ifs at hstep with hexited
    cases hstep
    exact .write bytes (by simpa using hexited)
  | exit =>
    simp only [step] at hstep
    split_ifs at hstep with hexited
    cases hstep
    exact .exit (by simpa using hexited)
  | set =>
    simp only [step] at hstep
    split_ifs at hstep with hset
    cases hstep
    simp only [Bool.and_eq_true,Bool.not_eq_true'] at hset
    exact .set hset.1 hset.2
  | select =>
    simp only [step] at hstep
    split_ifs at hstep with hpc hready
    · cases hstep
      have hnot : t.hungUp = false := ht.not_hungUp fun out h => by simp [h] at hpc
      exact .ready hpc (hready.resolve_right (by simp [hnot]))
    · cases hstep
      exact .timeout hpc (by simpa using (not_or.mp hready).1)
  | stopTest =>
    simp only [step] at hstep
    split_ifs at hstep with hpc hset
    · cases hstep
      exact .stops hpc hset
    · cases hstep
      exact .goesOn hpc (by simpa using hset)
  | read n =>
    simp only [step] at hstep
    split_ifs at hstep with hpc
    rw [osRead,if_pos (ht.reading hpc)] at hstep
    split_ifs at hstep with hn
    · have hchunk : (t.queued.take n).length = n := by
        rw [List.length_take]
        omega
      have hne : t.queued.take n ≠ [] := fun h => by
        rw [h,List.length_nil] at hchunk
        omega
      rw [Option.map_some,afterRead_chunk hne,hchunk,Option.some.injEq] at hstep
      cases hstep
      exact .reads n hpc hn.1 hn.2.1
    · cases hstep

/-- One step keeps the bytes in order. -/
theorem Draining.next (ht : Draining maxSize t) (hstep : t.step maxSize e = some t') :
    Draining maxSize t' := by
  obtain ⟨consumed,hwritten,houtput⟩ := ht.output
  have hrunning {pc : ReaderPc} (h : t.pc = pc) (hpc : ∀ out, pc ≠ .finished out) :
      t.slaveOpen = true := ht.slave fun out hout => hpc out (h.symm.trans hout)
  cases step_cases ht hstep with
  | write bytes runs =>
    refine ⟨⟨consumed,?_,houtput⟩,fun h => ?_,ht.slave,ht.stopped,ht.finished,ht.failed⟩
    · rw [hwritten,List.append_assoc]
    · exact List.append_ne_nil_of_left_ne_nil (ht.reading h) _
  | exit runs => exact ⟨⟨consumed,hwritten,houtput⟩,ht.reading,ht.slave,fun _ => rfl,ht.finished,ht.failed⟩
  | set gone fresh =>
    exact ⟨⟨consumed,hwritten,houtput⟩,ht.reading,ht.slave,fun _ => gone,
      fun out h => ⟨(ht.finished out h).1,rfl⟩,ht.failed⟩
  | ready pc some =>
    exact ⟨⟨consumed,hwritten,houtput⟩,fun _ => some,fun _ => hrunning pc nofun,ht.stopped,nofun,nofun⟩
  | timeout pc none =>
    exact ⟨⟨consumed,hwritten,houtput⟩,nofun,fun _ => hrunning pc nofun,ht.stopped,nofun,nofun⟩
  | goesOn pc runs =>
    exact ⟨⟨consumed,hwritten,houtput⟩,nofun,fun _ => hrunning pc nofun,ht.stopped,nofun,nofun⟩
  | stops pc gone =>
    refine ⟨⟨consumed,hwritten,houtput⟩,nofun,fun h => absurd rfl (h t.output),ht.stopped,?_,nofun⟩
    intro out h
    cases h
    exact ⟨rfl,gone⟩
  | reads n pc pos le =>
    refine ⟨⟨consumed ++ t.queued.take n,?_,?_⟩,nofun,fun _ => hrunning pc nofun,ht.stopped,nofun,nofun⟩
    · rw [List.append_assoc,List.take_append_drop,hwritten]
    · have hroom : maxSize - t.output.length = maxSize - consumed.length := by
        rw [houtput,List.length_take]
        omega
      rw [hroom,houtput,List.take_append]

theorem Draining.of_run {h : List (Terminal × TerminalEvent)} (run : Run (step maxSize) opened h t) :
    Draining maxSize t := by
  induction run with
  | start => exact draining_opened maxSize
  | next run taken ih => exact ih.next taken

/-- The stop test that ends the loop finds nothing left to read, or the buffer full. -/
def Drained (maxSize : ℕ) (t : Terminal) (e : TerminalEvent) : Prop :=
  e = .stopTest → t.stopEvt = true → t.queued = [] ∨ maxSize ≤ t.output.length

instance (maxSize : ℕ) (t : Terminal) (e : TerminalEvent) : Decidable (Drained maxSize t e) :=
  inferInstanceAs (Decidable (e = .stopTest → t.stopEvt = true →
    t.queued = [] ∨ maxSize ≤ t.output.length))

/-- The reader's answer, if it has one, is the beginning of what was written. -/
def Complete (maxSize : ℕ) (t : Terminal) : Prop :=
  ∀ out, t.pc = .finished out → out = t.written.take maxSize

theorem complete_of_running (h : ∀ out, t.pc ≠ .finished out) : Complete maxSize t :=
  fun out hout => absurd hout (h out)

theorem Draining.output_eq_iff (ht : Draining maxSize t) :
    t.output = t.written.take maxSize ↔ t.queued = [] ∨ maxSize ≤ t.output.length := by
  obtain ⟨consumed,hwritten,houtput⟩ := ht.output
  have hlen : t.output.length = min maxSize consumed.length := by rw [houtput,List.length_take]
  rw [hwritten,List.take_append,← houtput,List.self_eq_append_right,List.take_eq_nil_iff]
  constructor
  · rintro (h | h)
    · exact .inr (by omega)
    · exact .inl h
  · rintro (h | h)
    · exact .inr h
    · exact .inl (by omega)

/-- No step leaves a finished reader. -/
theorem Draining.running (ht : Draining maxSize t) (hstep : t.step maxSize e = some t') (out : Bytes) :
    t.pc ≠ .finished out := by
  intro h
  have hevt := (ht.finished out h).2
  have hexited := ht.stopped hevt
  cases step_cases ht hstep <;> simp_all

theorem complete_step_iff (ht : Draining maxSize t) (hstep : t.step maxSize e = some t') :
    Complete maxSize t' ↔ Drained maxSize t e := by
  have hrunning := ht.running hstep
  cases step_cases ht hstep with
  | stops pc gone =>
    have hanswer : Complete maxSize (t.close (.finished t.output)) ↔
        t.output = t.written.take maxSize := by
      refine ⟨fun h => h t.output rfl,fun h out hout => ?_⟩
      cases hout
      exact h
    rw [hanswer,ht.output_eq_iff]
    exact ⟨fun h _ _ => h,fun h => h rfl gone⟩
  | goesOn pc runs =>
    refine iff_of_true (complete_of_running nofun) fun _ h => ?_
    rw [runs] at h
    cases h
  | write | exit | set => exact iff_of_true (complete_of_running hrunning) nofun
  | ready | timeout | reads => exact iff_of_true (complete_of_running nofun) nofun

/-- How many steps a reader has left once the container is gone and the event is set. -/
def left (t : Terminal) : ℕ :=
  2 * t.queued.length + match t.pc with
    | .select => 2
    | .stopTest | .read => 1
    | .finished _ | .failed _ => 0

theorem left_le (t : Terminal) : t.left ≤ 2 * t.queued.length + 2 := by
  rw [left]
  split <;> omega

theorem left_step (ht : Draining maxSize t) (hevt : t.stopEvt = true)
    (hstep : t.step maxSize e = some t') : t'.stopEvt = true ∧ t'.left + 1 ≤ t.left := by
  have hexited := ht.stopped hevt
  cases step_cases ht hstep with
  | write bytes runs => simp [runs] at hexited
  | exit runs => simp [runs] at hexited
  | set gone fresh => simp [fresh] at hevt
  | goesOn pc runs => simp [runs] at hevt
  | ready pc _ | timeout pc _ => exact ⟨hevt,by simp [left,pc]⟩
  | stops pc gone => exact ⟨hevt,by simp [left,pc,close]⟩
  | reads n pc pos le =>
    refine ⟨hevt,?_⟩
    simp only [left,pc,List.length_drop]
    omega

theorem left_run (ht : Draining maxSize t) (hevt : t.stopEvt = true)
    {later : List (Terminal × TerminalEvent)} (run : Run (step maxSize) t later t') :
    Draining maxSize t' ∧ t'.stopEvt = true ∧ later.length + t'.left ≤ t.left := by
  induction run with
  | start => exact ⟨ht,hevt,by simp⟩
  | next run taken ih =>
    obtain ⟨ht',hevt',hle⟩ := ih
    obtain ⟨hset,hlt⟩ := left_step ht' hevt' taken
    refine ⟨ht'.next taken,hset,?_⟩
    rw [List.length_cons]
    omega

/-- The reader waits for nothing but bytes once the event is set. -/
theorem Draining.enabled (ht : Draining maxSize t) :
    (∃ out, t.pc = .finished out) ∨ ∃ e t', t.step maxSize e = some t' := by
  cases hpc : t.pc with
  | finished out => exact .inl ⟨out,rfl⟩
  | failed e => exact absurd hpc (ht.failed e)
  | select => exact .inr ⟨.select,_,by rw [step,if_pos hpc]⟩
  | stopTest =>
    refine .inr ⟨.stopTest,?_⟩
    rw [step,if_pos hpc]
    split_ifs
    · exact ⟨_,rfl⟩
    · exact ⟨_,rfl⟩
  | read =>
    have hne := ht.reading hpc
    have hpos := List.length_pos_of_ne_nil hne
    have hread : t.osRead 1 = some (.ok (t.queued.take 1)) := by
      rw [osRead,if_pos hne,if_pos (by omega)]
    exact .inr ⟨.read 1,_,by rw [step,if_pos hpc,hread,Option.map_some]⟩

theorem complete_before {h : List (Terminal × TerminalEvent)}
    (run : Run (step maxSize) opened h t) : ∀ p ∈ h, Complete maxSize p.1 := by
  induction run with
  | start => simp
  | next run taken ih =>
    have hrunning := (Draining.of_run run).running taken
    exact List.forall_mem_cons.mpr ⟨complete_of_running hrunning,ih⟩

/-- In every interleaving with the container and with `run_container`, the reader returns the first
`maxSize` bytes of all that was written exactly if each stop test that ends it finds nothing left
to read or the buffer full; and once the event is set it has only so many steps to its end. -/
theorem output_complete_iff {h : List (Terminal × TerminalEvent)}
    (run : Run (step maxSize) opened h t) :
    ((∀ out, t.pc = .finished out → out = t.written.take maxSize) ↔
      Guarded (Drained maxSize) h) ∧
    (t.stopEvt = true → ∀ later t', Run (step maxSize) t later t' →
      later.length ≤ 2 * t.queued.length + 2 ∧
      ((∃ out, t'.pc = .finished out) ∨ ∃ e t'', t'.step maxSize e = some t'')) := by
  have ht : Draining maxSize t := .of_run run
  constructor
  · have hiff := Run.invariant_iff (I := Complete maxSize)
      (complete_of_running (by simp [opened])) (draining_opened maxSize) (fun _ _ _ => Draining.next)
      (fun _ _ _ hJ _ hG taken => (complete_step_iff hJ taken).mpr hG)
      (fun _ _ _ hJ taken => (complete_step_iff hJ taken).mp) run
    exact ⟨fun hI => hiff.mp ⟨hI,complete_before run⟩,fun hG => (hiff.mpr hG).1⟩
  · intro hevt later t' hrun
    obtain ⟨ht',_,hle⟩ := left_run ht hevt hrun
    have := t.left_le
    exact ⟨by omega,ht'.enabled⟩

theorem output_complete_iff_late_byte :
    ∃ h t, Run (step 9) opened h t ∧ t.pc = .finished [7] ∧ [7] = t.written.take 9 := by
  have hr : replay (step 9) [] opened [.select,.write [7],.stopTest,.exit,.set,.select,.read 1,
      .select,.stopTest] = some (_,_) := rfl
  exact ⟨_,_,replay_run hr,rfl,(output_complete_iff (replay_run hr)).1.mpr (by decide) [7] rfl⟩

/-- A byte written after the select that times out, and before the stop test, is never read. -/
theorem output_lost_at_exit : ¬∀ (maxSize : ℕ) (h : List (Terminal × TerminalEvent)) (t : Terminal),
    Run (step maxSize) opened h t → ∀ out, t.pc = .finished out → out = t.written.take maxSize := by
  intro hclaim
  have hr : replay (step 9) [] opened [.select,.write [7],.exit,.set,.stopTest] = some (_,_) := rfl
  exact absurd (hclaim 9 _ _ (replay_run hr) [] rfl) (by decide)

end Terminal

end CodeExecutorApi
