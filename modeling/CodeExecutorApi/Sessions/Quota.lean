import CodeExecutorApi.Machine.Program
import CodeExecutorApi.Python.Numerals
import CodeExecutorApi.Sessions.Registry

/-! `SessionManager.create` from its call to its end, with no other task in between: the quota
commands one by one, the kernel's table of hard limits, and the two reports that are believed. -/
namespace CodeExecutorApi
open Python Machine

abbrev ProjectId := ℕ

/-- The settings `_apply_quota` reads, with the bounds config.py enforces. -/
structure QuotaSettings where
  mountpoint : Str
  maxSessionSize : ℕ
  maxSessionEntries : ℕ
  maxSessionSize_pos : 1 ≤ maxSessionSize
  maxSessionEntries_pos : 1 ≤ maxSessionEntries

/-- The hard limits of a project, in KiB and in inodes. Zero is no limit. -/
structure HardLimits where
  block : ℕ
  inode : ℕ
  deriving DecidableEq, Repr

/-- What `create` raises. -/
inductive CreateError
  | sessionLimitReached
  | quotaSetupFailed (message : Str)
  | osError
  | valueError
  | cancelled
  | exception
  deriving DecidableEq, Repr

/-- How the process of one `xfs_quota` command went. `stopped` is an exception of the await, such
as its cancellation. -/
inductive CommandOutcome
  | notInvoked (exc : Str)
  | timedOut
  | stopped (e : CreateError)
  | exited (returncode : ℤ) (stdout stderr : Str)
  deriving DecidableEq, Repr

/-- How the await for the removal in the except branch of `create` ended. A cancellation leaves
the worker thread alone, which may have removed the directory by then. -/
inductive RemovalOutcome
  | removed
  | osError
  | cancelled (removed : Bool)
  deriving DecidableEq, Repr

/-- The two reports `_apply_quota` asks for. -/
inductive QuotaReport
  | block
  | inode
  deriving DecidableEq, Repr

def QuotaReport.flag : QuotaReport → Str
  | .block => lit "-b"
  | .inode => lit "-i"

def QuotaReport.limitName : QuotaReport → Str
  | .block => lit "block"
  | .inode => lit "inode"

def HardLimits.get (l : HardLimits) : QuotaReport → ℕ
  | .block => l.block
  | .inode => l.inode

/-- What `create` gets from outside: the directory, the commands, whether `limit` registers its
limits whatever it exits with, and the removal. A report depends on the limits in force. -/
structure Outside where
  mkdtemp : Option Str
  setup : CommandOutcome
  registers : Bool
  report : QuotaReport → (ProjectId → HardLimits) → CommandOutcome
  removal : RemovalOutcome

/-- The manager, and the hard limits in the kernel. -/
structure QuotaHost (D A : Type) where
  manager : Manager D A
  hardLimits : ProjectId → HardLimits

/-- `_run_xfs_quota(*args)` -/
def runXfsQuota (args : List Str) : CommandOutcome → Except CreateError (ℤ × Str × Str)
  | .notInvoked exc => .error (.quotaSetupFailed (lit "Failed to invoke xfs_quota: " ++ exc))
  | .timedOut =>
    .error (.quotaSetupFailed (lit "xfs_quota timed out: " ++ (lit " ").intercalate args))
  | .stopped e => .error e
  | .exited returncode stdout stderr => .ok (returncode,stdout,stderr)

/-- The `#<id>` of a project in a report. -/
def projectName (projectId : ProjectId) : Str := lit "#" ++ decimal projectId

section Verify
variable (table : DigitTable) (settings : QuotaSettings) (projectId : ProjectId) (report : QuotaReport)

/-- The check of the line of the project. -/
def checkLine (line : Str) : Except CreateError Unit :=
  let noLimit : Except CreateError Unit := .error (.quotaSetupFailed
    (lit "xfs_quota reports no " ++ report.limitName ++ lit " hard limit set for project " ++
      decimal projectId ++ lit ": " ++ trim line))
  match (fields line)[3]? with
  | none => noLimit
  | some field =>
    if table.isdigit field = false then noLimit
    else match table.int field with
      | none => .error .valueError
      | some n => if n ≤ 0 then noLimit else .ok ()

/-- `_verify_quota_hard_limit`, which goes by the first line of the project. -/
def verifyQuotaHardLimit (outcome : CommandOutcome) : Except CreateError Unit := do
  let (returncode,stdout,stderr) ← runXfsQuota
    [lit "-x",lit "-c",lit "report -p -N -n " ++ report.flag,settings.mountpoint] outcome
  if returncode ≠ 0 then
    .error (.quotaSetupFailed (lit "xfs_quota " ++ report.limitName ++
      lit " verification failed for project " ++ decimal projectId ++ lit ": " ++
        trim (stdout ++ stderr)))
  else match (splitlines stdout).find? fun line =>
      (fields line).head? == some (projectName projectId) with
    | none => .error (.quotaSetupFailed (lit "xfs_quota project " ++ decimal projectId ++
        lit " not found in " ++ report.limitName ++ lit " report after setup"))
    | some line => checkLine table projectId report line

end Verify

/-- `-(-MAX_SESSION_SIZE // 1024)` -/
def QuotaSettings.bhardKib (settings : QuotaSettings) : ℕ :=
  (-(-(settings.maxSessionSize : ℤ)/1024)).toNat

/-- What `limit` is asked to register. -/
def QuotaSettings.limits (settings : QuotaSettings) : HardLimits :=
  ⟨settings.bhardKib,settings.maxSessionEntries⟩

section Create
variable {D A : Type} (fs : Storage D A) (cfg : Config) (table : DigitTable)
  (settings : QuotaSettings) (outside : Outside)

/-- The limits in force once the `limit` command for the project has run. -/
def limitsAfter (projectId : ProjectId) (limits : ProjectId → HardLimits) :
    ProjectId → HardLimits :=
  if outside.registers then Function.update limits projectId settings.limits else limits

def QuotaSettings.setupArgs (workDirectory : Str) (projectId : ProjectId) : List Str :=
  [lit "-x",lit "-c",lit "project -s -p " ++ workDirectory ++ lit " " ++ decimal projectId,
    lit "-c",lit "limit -p bhard=" ++ decimal settings.bhardKib ++ lit "k ihard=" ++
      decimal settings.maxSessionEntries ++ lit " " ++ decimal projectId,
    settings.mountpoint]

/-- Both commands, `project` and `limit`, in one process. -/
def runSetup (workDirectory : Str) (projectId : ProjectId) :
    Program (QuotaHost D A) CreateError (ℤ × Str × Str) := fun h =>
  (runXfsQuota (settings.setupArgs workDirectory projectId) outside.setup,
    { h with hardLimits := limitsAfter settings outside projectId h.hardLimits })

/-- `_verify_quota_hard_limit` on the report the kernel gives now. -/
def verifyNow (projectId : ProjectId) (report : QuotaReport) :
    Program (QuotaHost D A) CreateError Unit := fun h => (verifyQuotaHardLimit table settings projectId report
    (outside.report report h.hardLimits),h)

/-- `_apply_quota`, with the mountpoint set. -/
def applyQuota (workDirectory : Str) (projectId : ProjectId) :
    Program (QuotaHost D A) CreateError Unit := do
  let (returncode,stdout,stderr) ← runSetup settings outside workDirectory projectId
  if returncode ≠ 0 then
    .raise (.quotaSetupFailed (lit "xfs_quota setup failed for project " ++ decimal projectId ++
      lit ": " ++ trim (stdout ++ stderr)))
  else
    verifyNow table settings outside projectId .block
    verifyNow table settings outside projectId .inode

/-- `_allocate_project_id` -/
def allocateProjectId : Program (QuotaHost D A) CreateError ProjectId := fun h =>
  match h.manager.allocateProjectId with
  | none => (.error (.quotaSetupFailed (lit "Exhausted available XFS project ids")),h)
  | some (p,m) => (.ok p,{ h with manager := m })

/-- Without a quota mountpoint there is no project id. -/
def newProjectId : Program (QuotaHost D A) CreateError (Option ProjectId) :=
  if cfg.quotaMountpoint then allocateProjectId.bind fun p => .pure (some p) else .pure none

/-- The except branch of `create`. -/
def undoCreate (s : Ref) : Program (QuotaHost D A) CreateError Unit := fun h =>
  let m := (h.manager.pop s).releaseProjectId (h.manager.heap s).projectId
  match outside.removal with
  | .removed => (.ok (),{ h with manager := m.setDir s none })
  | .osError => (.ok (),{ h with manager := m })
  | .cancelled removed =>
    (.error .cancelled,{ h with manager := if removed then m.setDir s none else m.abandon s })

/-- `create` from its try block on, for the session object made next. -/
def registerAndLimit (m : Manager D A) (workDirectory : Str) (projectId : Option ProjectId) :
    Program (QuotaHost D A) CreateError Ref := do
  fun h => (.ok (),{ h with manager := h.manager.register m.next (m.newSession cfg projectId) })
  Program.onError
    (match projectId with
      | some p => applyQuota table settings outside workDirectory p
      | none => pure ())
    (undoCreate outside m.next)
  return m.next

/-- `SessionManager.create` -/
def createSession : Program (QuotaHost D A) CreateError Ref := fun h =>
  let m := h.manager
  if cfg.maxSessions ≤ m.sessions.length then (.error .sessionLimitReached,h)
  else match outside.mkdtemp with
    | none => (.error .osError,h)
    | some workDirectory =>
      ((newProjectId cfg).bind (registerAndLimit cfg table settings outside m workDirectory))
        { h with manager := m.mkdtemp fs }

end Create

section Verified
variable {table : DigitTable} {settings : QuotaSettings} {projectId : ProjectId} {report : QuotaReport}

theorem checkLine_ok {line : Str} (h : checkLine table projectId report line = .ok ()) :
    ∃ field n, (fields line)[3]? = some field ∧ table.int field = some n ∧ 0 < n := by
  unfold checkLine at h
  cases hfield : (fields line)[3]? with
  | none => simp [hfield] at h
  | some field =>
    simp only [hfield] at h
    split_ifs at h
    cases hn : table.int field with
    | none => simp [hn] at h
    | some n =>
      simp only [hn] at h
      split_ifs at h with hpos
      exact ⟨field,n,rfl,hn,Nat.pos_of_ne_zero fun h0 => hpos (Nat.le_of_eq h0)⟩

/-- A verification that passes has read a positive number off a line of the project. -/
theorem verifyQuotaHardLimit_ok {outcome : CommandOutcome}
    (h : verifyQuotaHardLimit table settings projectId report outcome = .ok ()) :
    ∃ stdout stderr line field n, outcome = .exited 0 stdout stderr ∧ line ∈ splitlines stdout ∧
      (fields line).head? = some (projectName projectId) ∧ (fields line)[3]? = some field ∧
        table.int field = some n ∧ 0 < n := by
  cases outcome with
  | notInvoked exc => cases h
  | timedOut => cases h
  | stopped e => cases h
  | exited returncode stdout stderr =>
    simp only [verifyQuotaHardLimit,runXfsQuota,bind,Except.bind] at h
    split_ifs at h with hcode
    have hzero : returncode = 0 := not_not.mp hcode
    cases hline : (splitlines stdout).find? fun line =>
        (fields line).head? == some (projectName projectId) with
    | none => simp [hline] at h
    | some line =>
      rw [hline] at h
      obtain ⟨field,n,hfield,hn,hpos⟩ := checkLine_ok h
      have hhead := List.find?_some hline
      exact ⟨stdout,stderr,line,field,n,by rw [hzero],List.mem_of_find?_eq_some hline,
        beq_iff_eq.mp hhead,hfield,hn,hpos⟩

end Verified

/-- Whatever else a report says, the fourth field of a project's lines is its hard limit. -/
def Reports (limit : ProjectId → ℕ) (stdout : Str) : Prop :=
  ∀ line ∈ splitlines stdout, ∀ p, (fields line).head? = some (projectName p) →
    (fields line)[3]? = some (decimal (limit p))

/-- A report that succeeds is about the limits in force. -/
def Outside.Truthful (outside : Outside) : Prop :=
  ∀ report limits stdout stderr, outside.report report limits = .exited 0 stdout stderr →
    Reports (fun p => (limits p).get report) stdout

theorem verifyNow_pos {table : DigitTable} {settings : QuotaSettings} {p : ProjectId}
    {report : QuotaReport} {outside : Outside} {limits : ProjectId → HardLimits}
    (truthful : outside.Truthful)
    (h : verifyQuotaHardLimit table settings p report (outside.report report limits) = .ok ()) :
    0 < (limits p).get report := by
  obtain ⟨stdout,stderr,line,field,n,hexit,hline,hhead,hfield,hn,hpos⟩ :=
    verifyQuotaHardLimit_ok h
  have htrue := truthful report limits stdout stderr hexit line hline p hhead
  rw [hfield,Option.some.injEq] at htrue
  rw [htrue] at hn
  have hlimit : n = (limits p).get report := int_decimal table hn
  rwa [← hlimit]

section Inversion
variable {D A : Type} {fs : Storage D A} {cfg : Config} {table : DigitTable}
  {settings : QuotaSettings} {outside : Outside} {h h' : QuotaHost D A}

/-- Only the table of limits can have changed, whatever becomes of the commands. -/
theorem applyQuota_host (workDirectory : Str) (p : ProjectId) (h : QuotaHost D A) :
    (applyQuota table settings outside workDirectory p h).2 =
      { h with hardLimits := limitsAfter settings outside p h.hardLimits } := by
  simp only [applyQuota,bind,Program.bind,runSetup]
  cases runXfsQuota (settings.setupArgs workDirectory p) outside.setup with
  | error e => rfl
  | ok r =>
    obtain ⟨returncode,stdout,stderr⟩ := r
    dsimp only
    split_ifs
    · rfl
    · simp only [Program.bind,verifyNow]
      split <;> simp_all

/-- A quota that was applied has passed both verifications. -/
theorem applyQuota_ok {workDirectory : Str} {p : ProjectId}
    (happ : (applyQuota table settings outside workDirectory p h).1 = .ok ()) (report : QuotaReport) :
    verifyQuotaHardLimit table settings p report
      (outside.report report (limitsAfter settings outside p h.hardLimits)) = .ok () := by
  simp only [applyQuota,bind,Program.bind,runSetup] at happ
  cases hsetup : runXfsQuota (settings.setupArgs workDirectory p) outside.setup with
  | error e => simp [hsetup] at happ
  | ok r =>
    obtain ⟨returncode,stdout,stderr⟩ := r
    simp only [hsetup] at happ
    split_ifs at happ
    · cases happ
    · simp only [Program.bind,verifyNow] at happ
      cases hblock : verifyQuotaHardLimit table settings p .block
          (outside.report .block (limitsAfter settings outside p h.hardLimits)) with
      | error e => simp [hblock] at happ
      | ok u =>
        simp only [hblock] at happ
        cases report with
        | block => exact hblock
        | inode => exact happ

/-- The host once `create` has registered the session object made next. -/
def QuotaHost.registered (cfg : Config) (h : QuotaHost D A) (m : Manager D A)
    (projectId : Option ProjectId) : QuotaHost D A :=
  { h with manager := m.register h.manager.next (h.manager.newSession cfg projectId) }

/-- Every way `create` can end. -/
inductive Creates (fs : Storage D A) (cfg : Config) (table : DigitTable) (settings : QuotaSettings)
    (outside : Outside) (h : QuotaHost D A) : Except CreateError Ref → QuotaHost D A → Prop
  | full (room : cfg.maxSessions ≤ h.manager.sessions.length) :
      Creates fs cfg table settings outside h (.error .sessionLimitReached) h
  | noDirectory (room : ¬cfg.maxSessions ≤ h.manager.sessions.length)
      (made : outside.mkdtemp = none) :
      Creates fs cfg table settings outside h (.error .osError) h
  | exhausted {workDirectory : Str} (room : ¬cfg.maxSessions ≤ h.manager.sessions.length)
      (made : outside.mkdtemp = some workDirectory) (quota : cfg.quotaMountpoint = true)
      (ids : (h.manager.mkdtemp fs).allocateProjectId = none) :
      Creates fs cfg table settings outside h
        (.error (.quotaSetupFailed (lit "Exhausted available XFS project ids")))
        { h with manager := h.manager.mkdtemp fs }
  | unlimited {workDirectory : Str} (room : ¬cfg.maxSessions ≤ h.manager.sessions.length)
      (made : outside.mkdtemp = some workDirectory) (quota : cfg.quotaMountpoint = false) :
      Creates fs cfg table settings outside h (.ok h.manager.next)
        (h.registered cfg (h.manager.mkdtemp fs) none)
  | limited {workDirectory : Str} {p : ProjectId} {m : Manager D A}
      (room : ¬cfg.maxSessions ≤ h.manager.sessions.length)
      (made : outside.mkdtemp = some workDirectory) (quota : cfg.quotaMountpoint = true)
      (ids : (h.manager.mkdtemp fs).allocateProjectId = some (p,m))
      (verified : ∀ report, verifyQuotaHardLimit table settings p report
        (outside.report report (limitsAfter settings outside p h.hardLimits)) = .ok ()) :
      Creates fs cfg table settings outside h (.ok h.manager.next)
        { h.registered cfg m (some p) with
          hardLimits := limitsAfter settings outside p h.hardLimits }
  | undone {workDirectory : Str} {p : ProjectId} {m : Manager D A} {e : CreateError}
      (room : ¬cfg.maxSessions ≤ h.manager.sessions.length)
      (made : outside.mkdtemp = some workDirectory) (quota : cfg.quotaMountpoint = true)
      (ids : (h.manager.mkdtemp fs).allocateProjectId = some (p,m)) :
      Creates fs cfg table settings outside h (.error e)
        (undoCreate outside h.manager.next { h.registered cfg m (some p) with
          hardLimits := limitsAfter settings outside p h.hardLimits }).2

/-- `create` from its try block on: the quota is applied, or everything is undone. -/
theorem registerAndLimit_some (cfg : Config) (table : DigitTable) (settings : QuotaSettings)
    (outside : Outside) (h : QuotaHost D A) (m : Manager D A) (workDirectory : Str)
    (p : ProjectId) :
    let limited : QuotaHost D A := ⟨h.manager.register m.next (m.newSession cfg (some p)),
      limitsAfter settings outside p h.hardLimits⟩
    ((∀ report, verifyQuotaHardLimit table settings p report
        (outside.report report limited.hardLimits) = .ok ()) ∧
      registerAndLimit cfg table settings outside m workDirectory (some p) h =
        (.ok m.next,limited)) ∨
      ∃ e, registerAndLimit cfg table settings outside m workDirectory (some p) h =
        (.error e,(undoCreate outside m.next limited).2) := by
  intro limited
  let h₁ : QuotaHost D A := ⟨h.manager.register m.next (m.newSession cfg (some p)),h.hardLimits⟩
  have hhost : (applyQuota table settings outside workDirectory p h₁).2 = limited :=
    applyQuota_host workDirectory p h₁
  simp only [registerAndLimit,bind,Program.bind,Program.onError,Program.handle]
  cases happ : applyQuota table settings outside workDirectory p h₁ with
  | mk r h₂ =>
    rw [happ] at hhost
    subst hhost
    cases r with
    | ok u => exact .inl ⟨applyQuota_ok (h := h₁) (by rw [happ]),rfl⟩
    | error e =>
      right
      cases hundo : undoCreate outside m.next limited with
      | mk r h₃ =>
        cases r with
        | ok u => exact ⟨e,by simp [hundo,Program.raise]⟩
        | error e' => exact ⟨e',by simp [hundo]⟩

theorem newProjectId_none (quota : cfg.quotaMountpoint = true)
    (ids : h.manager.allocateProjectId = none) : newProjectId cfg h =
      (.error (.quotaSetupFailed (lit "Exhausted available XFS project ids")),h) := by
  simp only [newProjectId,quota,if_true,Program.bind,allocateProjectId,ids]

theorem newProjectId_some {p : ProjectId} {m : Manager D A} (quota : cfg.quotaMountpoint = true)
    (ids : h.manager.allocateProjectId = some (p,m)) :
    newProjectId cfg h = (.ok (some p),{ h with manager := m }) := by
  simp only [newProjectId,quota,if_true,Program.bind,allocateProjectId,ids]
  rfl

theorem createSession_cases (fs : Storage D A) (cfg : Config) (table : DigitTable)
    (settings : QuotaSettings) (outside : Outside) (h : QuotaHost D A) :
    Creates fs cfg table settings outside h
      (createSession fs cfg table settings outside h).1
      (createSession fs cfg table settings outside h).2 := by
  unfold createSession
  by_cases room : cfg.maxSessions ≤ h.manager.sessions.length
  · simp only [if_pos room]
    exact .full room
  · simp only [if_neg room]
    cases made : outside.mkdtemp with
    | none => exact .noDirectory room made
    | some workDirectory =>
      cases quota : cfg.quotaMountpoint with
      | false =>
        simp only [newProjectId,quota]
        exact .unlimited room made quota
      | true =>
        cases ids : (h.manager.mkdtemp fs).allocateProjectId with
        | none =>
          have hids := newProjectId_none (h := { h with manager := h.manager.mkdtemp fs }) quota ids
          simp only [Program.bind,hids]
          exact .exhausted room made quota ids
        | some r =>
          obtain ⟨p,m⟩ := r
          have hids := newProjectId_some (h := { h with manager := h.manager.mkdtemp fs }) quota ids
          simp only [Program.bind,hids]
          cases registerAndLimit_some cfg table settings outside { h with manager := m }
            h.manager workDirectory p with
          | inl hok =>
            rw [hok.2]
            exact .limited room made quota ids hok.1
          | inr herror =>
            obtain ⟨e,he⟩ := herror
            rw [he]
            exact .undone room made quota ids

end Inversion

/-- The byte limit and the inode limit are no looser than the settings. -/
def HardLimits.NoLooser (settings : QuotaSettings) (l : HardLimits) : Prop :=
  l.block*1024 ≤ settings.maxSessionSize ∧ l.inode ≤ settings.maxSessionEntries

/-- The limits are set, and no looser than the settings. -/
structure HardLimits.Limited (settings : QuotaSettings) (l : HardLimits) : Prop where
  block_pos : 0 < l.block
  inode_pos : 0 < l.inode
  noLooser : l.NoLooser settings

/-- Rounding up to a KiB is looser than the size unless the size is a number of KiB. -/
theorem QuotaSettings.limits_noLooser (settings : QuotaSettings) :
    settings.limits.NoLooser settings ↔ 1024 ∣ settings.maxSessionSize := by
  simp only [HardLimits.NoLooser,QuotaSettings.limits,QuotaSettings.bhardKib]
  omega

section Limited
variable {D A : Type} {fs : Storage D A} {cfg : Config} {table : DigitTable}
  {settings : QuotaSettings} {outside : Outside} {h h' : QuotaHost D A} {s : Ref} {p : ProjectId}

/-- Under a mountpoint, `create` hands out a session whose limits were both verified. -/
theorem created_verified (quota : cfg.quotaMountpoint = true)
    (created : createSession fs cfg table settings outside h = (.ok s,h'))
    (hp : (h'.manager.heap s).projectId = some p) :
    h'.hardLimits = limitsAfter settings outside p h.hardLimits ∧
      ∀ report, verifyQuotaHardLimit table settings p report
        (outside.report report h'.hardLimits) = .ok () := by
  have hcases := createSession_cases fs cfg table settings outside h
  rw [created] at hcases
  cases hcases with
  | unlimited _ _ unset => simp [quota] at unset
  | limited _ _ _ ids verified =>
    simp only [QuotaHost.registered,Manager.register,Manager.setSession_heap,if_true,
      Manager.newSession,Option.some.injEq] at hp
    subst hp
    exact ⟨rfl,verified⟩

/-- The limits of a session that was handed out are set. They are no looser than the settings if
`limit` registered them and the size is a number of KiB, or if it registered nothing and those
that an earlier owner of the project id left behind are no looser, and only then. -/
theorem created_limited_iff (truthful : outside.Truthful) (quota : cfg.quotaMountpoint = true)
    (created : createSession fs cfg table settings outside h = (.ok s,h'))
    (hp : (h'.manager.heap s).projectId = some p) :
    (h'.hardLimits p).Limited settings ↔
      (outside.registers = true ∧ 1024 ∣ settings.maxSessionSize) ∨
        (outside.registers = false ∧ (h.hardLimits p).NoLooser settings) := by
  obtain ⟨hafter,verified⟩ := created_verified quota created hp
  have hpos (report : QuotaReport) : 0 < (h'.hardLimits p).get report :=
    verifyNow_pos truthful (verified report)
  have hlimited : (h'.hardLimits p).Limited settings ↔ (h'.hardLimits p).NoLooser settings :=
    ⟨fun hl => hl.noLooser,fun hl => ⟨hpos .block,hpos .inode,hl⟩⟩
  rw [hlimited,hafter,limitsAfter]
  cases outside.registers with
  | true => simp [settings.limits_noLooser]
  | false => simp

end Limited

/-- A report of one line, about one project. -/
theorem Reports.of_line {limit : ProjectId → ℕ} {stdout : Str} (line : Str) {p : ProjectId}
    (hlines : splitlines stdout = [line]) (hhead : (fields line).head? = some (projectName p))
    (hfield : (fields line)[3]? = some (decimal (limit p))) : Reports limit stdout := by
  intro line' hline' q hq
  rw [hlines,List.mem_singleton] at hline'
  subst hline'
  rw [hhead,Option.some.injEq] at hq
  have hpq : p = q := decimal_injective (List.append_cancel_left hq)
  rw [← hpq]
  exact hfield

/-- Sessions of 1500 bytes and ten entries. -/
def QuotaSettings.small : QuotaSettings where
  mountpoint := lit "/srv"
  maxSessionSize := 1500
  maxSessionEntries := 10
  maxSessionSize_pos := by decide
  maxSessionEntries_pos := by decide

/-- The limits are registered as asked for, two KiB and ten inodes, and reported so. -/
def Outside.rounding : Outside where
  mkdtemp := some (lit "/srv/code_executor_session_1")
  setup := .exited 0 [] []
  registers := true
  report r limits :=
    if limits 1000 = ⟨2,10⟩ then
      match r with
      | .block => .exited 0 (lit "#1000  0  0  2  00 [--------]\n") []
      | .inode => .exited 0 (lit "#1000  1  0  10  00 [--------]\n") []
    else .timedOut
  removal := .removed

theorem Outside.rounding_truthful : Outside.rounding.Truthful := by
  intro report limits stdout stderr hexit
  simp only [rounding] at hexit
  split_ifs at hexit with hlimits
  cases report with
  | block =>
    cases hexit
    refine Reports.of_line (lit "#1000  0  0  2  00 [--------]") (p := 1000) ?_ ?_ ?_
    · decide +kernel
    · decide +kernel
    · rw [hlimits]
      decide +kernel
  | inode =>
    cases hexit
    refine Reports.of_line (lit "#1000  1  0  10  00 [--------]") (p := 1000) ?_ ?_ ?_
    · decide +kernel
    · decide +kernel
    · rw [hlimits]
      decide +kernel

/-- The first session of a fresh service. -/
def QuotaHost.fresh : QuotaHost (List ℕ) ℕ := ⟨Manager.init .tight,fun _ => ⟨0,0⟩⟩

/-- The first session is handed out under project 1000. -/
theorem QuotaHost.fresh_created : ∃ h', createSession .log .tight .ascii .small .rounding .fresh =
    (.ok 0,h') ∧ (h'.manager.heap 0).projectId = some 1000 := by
  have hok : (createSession .log .tight .ascii .small .rounding .fresh).1 = .ok 0 := by
    decide +kernel
  exact ⟨_,Prod.ext hok rfl,by decide +kernel⟩

theorem created_limited_iff_small : ∃ h',
    createSession .log .tight .ascii .small .rounding .fresh = (.ok 0,h') ∧
      ((h'.hardLimits 1000).Limited .small ↔
        (Outside.rounding.registers = true ∧ 1024 ∣ QuotaSettings.small.maxSessionSize) ∨
          (Outside.rounding.registers = false ∧ (QuotaHost.fresh.hardLimits 1000).NoLooser .small)) := by
  obtain ⟨h',created,hp⟩ := QuotaHost.fresh_created
  exact ⟨h',created,created_limited_iff Outside.rounding_truthful rfl created hp⟩

/-- Two KiB are more than 1500 bytes. -/
theorem created_looser_than_settings : ¬∀ (settings : QuotaSettings) (outside : Outside)
    (h h' : QuotaHost (List ℕ) ℕ) (s : Ref) (p : ProjectId), outside.Truthful →
      createSession .log .tight .ascii settings outside h = (.ok s,h') →
        (h'.manager.heap s).projectId = some p → (h'.hardLimits p).Limited settings := by
  intro hall
  obtain ⟨h',created,hp⟩ := QuotaHost.fresh_created
  have hlimited := hall .small .rounding .fresh h' 0 1000 Outside.rounding_truthful created hp
  have hafter := (created_verified rfl created hp).1
  have hblock := hlimited.noLooser.1
  rw [hafter] at hblock
  revert hblock
  decide +kernel

end CodeExecutorApi
