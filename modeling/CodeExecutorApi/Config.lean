import CodeExecutorApi.Python.AbsolutePath
import CodeExecutorApi.Python.Numerals
import CodeExecutorApi.Python.Shlex

/-! config.py: every setting, read from the environment once at import. -/
namespace Python

/-- The string without the characters at its ends that `p` holds of. -/
def stripWith (p : CodePoint → Bool) (s : Str) : Str :=
  ((s.dropWhile p).reverse.dropWhile p).reverse

/-- Neither end is one that `p` holds of. -/
def Trimmed (p : CodePoint → Bool) (s : Str) : Prop :=
  ∀ c, s.head? = some c ∨ s.getLast? = some c → p c = false

section Strip
variable {p q : CodePoint → Bool} {s : Str}

theorem trimmed_of_forall (h : ∀ c ∈ s, p c = false) : Trimmed p s := by
  rintro c (hc | hc)
  · exact h c (List.mem_of_head? hc)
  · exact h c (List.mem_of_getLast? hc)

theorem stripWith_pad (h : Trimmed p s) {pre post : Str} (hpre : ∀ c ∈ pre, p c = true)
    (hpost : ∀ c ∈ post, p c = true) : stripWith p (pre ++ s ++ post) = s := by
  have hrev : ∀ c ∈ post.reverse, p c = true := fun c hc => hpost c (List.mem_reverse.mp hc)
  rw [stripWith,List.append_assoc,List.dropWhile_append_of_pos hpre]
  rcases hs : s with _ | ⟨c,t⟩
  · have hnil : (post ++ []).dropWhile p = [] := List.dropWhile_append_of_pos hpost
    rw [List.append_nil] at hnil
    rw [List.nil_append,hnil]
    rfl
  · have hc : p c = false := h c (.inl (by rw [hs]; rfl))
    obtain ⟨u,d,hud⟩ := (List.eq_nil_or_concat' s).resolve_left (by simp [hs])
    have hd : p d = false := h d (.inr (by simp [hud]))
    rw [List.cons_append,List.dropWhile_cons_of_neg (by simp [hc]),← List.cons_append,← hs,
      List.reverse_append,List.dropWhile_append_of_pos hrev,hud,List.reverse_append,
      List.reverse_singleton,List.singleton_append,List.dropWhile_cons_of_neg (by simp [hd]),
      List.reverse_cons,List.reverse_reverse]

theorem not_head_dropWhile {c : CodePoint} (h : (s.dropWhile p).head? = some c) : p c = false := by
  have := List.head?_dropWhile_not p s
  rw [h] at this
  simpa using this

theorem trimmed_stripWith (p : CodePoint → Bool) (s : Str) : Trimmed p (stripWith p s) := by
  rintro c (hc | hc)
  · obtain ⟨t,ht⟩ : (stripWith p s).IsPrefix (s.dropWhile p) := by
      have hsuffix := List.dropWhile_suffix p (l := (s.dropWhile p).reverse)
      simpa [stripWith] using List.reverse_prefix.mpr hsuffix
    refine not_head_dropWhile (s := s) ?_
    rw [← ht,List.head?_append,hc]
    rfl
  · rw [stripWith,List.getLast?_reverse] at hc
    exact not_head_dropWhile hc

end Strip

def minus : CodePoint := 0x2D

def plus : CodePoint := 0x2B

def underscore : CodePoint := 0x5F

/-- `str(n)` of an integer. -/
def signed (n : ℤ) : Str := if n < 0 then minus :: decimal n.natAbs else decimal n.natAbs

/-- The spaces that `int` skips: of those that are ASCII it knows fewer than `str.isspace`. -/
def isIntSpace (c : CodePoint) : Bool := isSpace c && decide ¬(0x1C ≤ c.val ∧ c.val ≤ 0x1F)

/-- `int(s)`: spaces around, a sign, and digits that single underscores may separate. `none` is a
`ValueError`. -/
def DigitTable.signedInt (table : DigitTable) (s : Str) : Option ℤ :=
  let body := stripWith isIntSpace s
  let digits := if body.head? = some minus ∨ body.head? = some plus then body.tail else body
  let groups := digits.splitOn underscore
  if [] ∈ groups ∨ intMaxStrDigits < groups.flatten.length then none
  else (table.readDigits groups.flatten).map fun (n : ℕ) =>
    if body.head? = some minus then -(n : ℤ) else (n : ℤ)

theorem digit_of_mem_decimal {n : ℕ} {c : CodePoint} (h : c ∈ decimal n) :
    0x30 ≤ c.val ∧ c.val ≤ 0x39 := by
  simpa [DigitTable.ascii] using isDigit_of_mem_decimal .ascii h

theorem isSpace_of_isIntSpace {c : CodePoint} (h : isIntSpace c = true) : isSpace c = true := by
  rw [isIntSpace,Bool.and_eq_true] at h
  exact h.1

theorem isIntSpace_signed {n : ℤ} {c : CodePoint} (h : c ∈ signed n) : isIntSpace c = false := by
  have hdigit (h : c ∈ decimal n.natAbs) : isIntSpace c = false := by
    have := digit_of_mem_decimal h
    simp only [isIntSpace,isSpace,List.mem_cons,List.not_mem_nil,or_false,Bool.and_eq_false_iff,
      decide_eq_false_iff_not]
    omega
  unfold signed at h
  split_ifs at h
  · rcases List.mem_cons.mp h with rfl | h
    · decide
    · exact hdigit h
  · exact hdigit h

/-- `int` reads back what `str` wrote, with any spaces around it. -/
theorem signedInt_signed (table : DigitTable) {n : ℤ}
    (hn : (decimal n.natAbs).length ≤ intMaxStrDigits) {pre post : Str}
    (hpre : ∀ c ∈ pre, isIntSpace c = true) (hpost : ∀ c ∈ post, isIntSpace c = true) :
    table.signedInt (pre ++ signed n ++ post) = some n := by
  have htrimmed : Trimmed isIntSpace (signed n) := trimmed_of_forall fun c => isIntSpace_signed
  obtain ⟨c,t,hct⟩ := List.exists_cons_of_ne_nil (decimal_ne_nil n.natAbs)
  have hc := digit_of_mem_decimal (n := n.natAbs) (c := c) (by simp [hct])
  have hgroups : (decimal n.natAbs).splitOn underscore = [decimal n.natAbs] := by
    refine List.splitOn_eq_singleton fun hmem => ?_
    have := digit_of_mem_decimal hmem
    simp [underscore] at this
  have hminus : c ≠ minus := fun h => by
    rw [h] at hc
    simp [minus] at hc
  have hplus : c ≠ plus := fun h => by
    rw [h] at hc
    simp [plus] at hc
  have hread : ¬([] ∈ [decimal n.natAbs] ∨ intMaxStrDigits < (decimal n.natAbs).length) := by
    rintro (h | h)
    · exact decimal_ne_nil _ (List.mem_singleton.mp h).symm
    · omega
  unfold DigitTable.signedInt
  rw [stripWith_pad htrimmed hpre hpost]
  by_cases hneg : n < 0
  · have hs : signed n = minus :: decimal n.natAbs := if_pos hneg
    simp only [hs,List.head?_cons,List.tail_cons,true_or,if_true,hgroups,List.flatten_singleton,
      if_neg hread,readDigits_decimal,Option.map_some]
    rw [Option.some.injEq]
    omega
  · have hs : signed n = decimal n.natAbs := if_neg hneg
    have hsign : (decimal n.natAbs).head? ≠ some minus ∧ (decimal n.natAbs).head? ≠ some plus := by
      rw [hct]
      simpa using ⟨hminus,hplus⟩
    simp only [hs,hsign.1,hsign.2,or_self,if_false,hgroups,List.flatten_singleton,if_neg hread,
      readDigits_decimal,Option.map_some]
    rw [Option.some.injEq]
    omega

theorem isSpace_safe {c : CodePoint} (h : isSafe c = true) : isSpace c = false := by
  simp only [isSafe,decide_eq_true_eq,List.mem_cons,List.not_mem_nil,or_false] at h
  simp only [isSpace,decide_eq_false_iff_not,List.mem_cons,List.not_mem_nil,or_false]
  omega

/-- A quoted argument neither begins nor ends with a space. -/
theorem trimmed_shlexQuote (s : Str) : Trimmed isSpace (shlexQuote s) := by
  have hquote : isSpace singleQuote = false := by decide
  unfold shlexQuote
  split_ifs with hnil hsafe
  · exact trimmed_of_forall (by simpa using hquote)
  · exact trimmed_of_forall fun c hc => isSpace_safe (List.all_eq_true.mp hsafe c hc)
  · rintro c (hc | hc)
    · cases hc
      exact hquote
    · rw [← List.cons_append,List.getLast?_concat] at hc
      cases hc
      exact hquote

theorem shlexQuote_ne_nil (s : Str) : shlexQuote s ≠ [] := by
  unfold shlexQuote
  split_ifs with hnil
  · exact List.cons_ne_nil _ _
  · exact hnil
  · exact List.cons_ne_nil _ _

theorem trimmed_shlexJoin (args : List Str) : Trimmed isSpace (shlexJoin args) := by
  rintro c (hc | hc)
  · cases args with
    | nil => cases hc
    | cons a args =>
      refine trimmed_shlexQuote a c (.inl ?_)
      cases args with
      | nil => simpa [shlexJoin] using hc
      | cons b args =>
        rwa [shlexJoin,List.map_cons,List.intercalate_cons_of_ne_nil (by simp),List.append_assoc,
          List.head?_append_of_ne_nil _ (shlexQuote_ne_nil a)] at hc
  · obtain rfl | ⟨args,a,rfl⟩ := List.eq_nil_or_concat' args
    · cases hc
    · refine trimmed_shlexQuote a c (.inr ?_)
      rwa [shlexJoin,List.map_append,List.map_singleton,intercalate_concat,
        List.getLast?_append_of_ne_nil _ (shlexQuote_ne_nil a)] at hc

end Python

namespace CodeExecutorApi
open Python

/-- The `ValueError` of a malformed setting. -/
structure ConfigError where
  message : Str
  deriving DecidableEq, Repr

section Readers
variable (getenv : Str → Option Str)

def readStrEnv (name default : Str) : Str :=
  match getenv name with
  | none => default
  | some rawValue => trim rawValue

/-- Read a command line into an argv tuple. -/
def readArgvEnv (name default : Str) : Except ConfigError (List Str) :=
  match shlexSplit (readStrEnv getenv name default) with
  | .error exc => .error ⟨name ++ lit " must be a valid command line: " ++ exc.message⟩
  | .ok argv => if argv = [] then .error ⟨name ++ lit " must not be empty."⟩ else .ok argv

def readOptionalStrEnv (name : Str) : Except ConfigError (Option Str) :=
  match getenv name with
  | none => .ok none
  | some rawValue =>
    let value := trim rawValue
    if value = [] then .error ⟨name ++ lit " must not be empty."⟩ else .ok (some value)

/-- `cwd` is the working directory of the process at import. -/
def readOptionalPathEnv (cwd name : Str) : Except ConfigError (Option Str) :=
  (readOptionalStrEnv getenv name).map fun value => value.map (abspath cwd)

def readIntEnv (table : DigitTable) (name : Str) (default : ℤ) (minValue : Option ℤ) :
    Except ConfigError ℤ :=
  match getenv name with
  | none => .ok default
  | some rawValue =>
    match table.signedInt rawValue with
    | none => .error ⟨name ++ lit " must be an integer."⟩
    | some value =>
      match minValue with
      | none => .ok value
      | some bound =>
        if value < bound then .error ⟨name ++ lit " must be >= " ++ signed bound ++ lit "."⟩
        else .ok value

variable {getenv} {name default : Str}

theorem readIntEnv_eq_ok {table : DigitTable} {default n : ℤ} {minValue : Option ℤ} :
    readIntEnv getenv table name default minValue = .ok n ↔ (getenv name = none ∧ n = default) ∨
      ∃ rawValue, getenv name = some rawValue ∧ table.signedInt rawValue = some n ∧
        ∀ bound ∈ minValue, bound ≤ n := by
  unfold readIntEnv
  cases getenv name with
  | none =>
    constructor
    · rintro ⟨⟩
      exact .inl ⟨rfl,rfl⟩
    · rintro (⟨-,rfl⟩ | ⟨rawValue,⟨⟩,-⟩)
      rfl
  | some rawValue =>
    cases hvalue : table.signedInt rawValue with
    | none =>
      simp only [hvalue]
      constructor
      · rintro ⟨⟩
      · rintro (⟨⟨⟩,-⟩ | ⟨_,⟨⟩,hn,-⟩)
        rw [hvalue] at hn
        cases hn
    | some value =>
      simp only [hvalue]
      constructor
      · intro h
        refine .inr ⟨rawValue,rfl,?_⟩
        cases minValue with
        | none =>
          cases h
          exact ⟨hvalue,by simp⟩
        | some bound =>
          dsimp only at h
          split_ifs at h with hbound
          cases h
          exact ⟨hvalue,by simpa using hbound⟩
      · rintro (⟨⟨⟩,-⟩ | ⟨_,⟨⟩,hn,hbound⟩)
        rw [hvalue] at hn
        cases hn
        cases minValue with
        | none => rfl
        | some bound =>
          have hle := hbound bound rfl
          dsimp only
          rw [if_neg (by omega)]

theorem readOptionalStrEnv_eq_ok {value : Option Str} :
    readOptionalStrEnv getenv name = .ok value ↔ (getenv name = none ∧ value = none) ∨
      ∃ rawValue, getenv name = some rawValue ∧ trim rawValue ≠ [] ∧
        value = some (trim rawValue) := by
  unfold readOptionalStrEnv
  cases getenv name with
  | none =>
    constructor
    · rintro ⟨⟩
      exact .inl ⟨rfl,rfl⟩
    · rintro (⟨-,rfl⟩ | ⟨rawValue,⟨⟩,-⟩)
      rfl
  | some rawValue =>
    dsimp only
    constructor
    · intro h
      split_ifs at h with hnil
      cases h
      exact .inr ⟨rawValue,rfl,hnil,rfl⟩
    · rintro (⟨⟨⟩,-⟩ | ⟨_,⟨⟩,hne,rfl⟩)
      rw [if_neg hne]

theorem readArgvEnv_eq_ok {argv : List Str} : readArgvEnv getenv name default = .ok argv ↔
    argv ≠ [] ∧ shlexSplit (readStrEnv getenv name default) = .ok argv := by
  unfold readArgvEnv
  cases shlexSplit (readStrEnv getenv name default) with
  | error exc => simp
  | ok argv' =>
    dsimp only
    split_ifs with hnil
    · subst hnil
      refine iff_of_false (by simp) fun h => h.1 ?_
      exact (Except.ok.inj h.2).symm
    · constructor
      · rintro ⟨⟩
        exact ⟨hnil,rfl⟩
      · rintro ⟨-,⟨⟩⟩
        rfl

theorem readStrEnv_pad {s pre post : Str} (h : Trimmed isSpace s)
    (hpre : ∀ c ∈ pre, isSpace c = true) (hpost : ∀ c ∈ post, isSpace c = true)
    (hset : getenv name = some (pre ++ s ++ post)) : readStrEnv getenv name default = s := by
  rw [readStrEnv,hset]
  exact stripWith_pad h hpre hpost

/-- A command line is accepted exactly if it renders a command, and is that command; and every
command can be set, with any spaces around it. -/
theorem readArgvEnv_exact (getenv : Str → Option Str) (name default : Str) :
    (∀ argv, readArgvEnv getenv name default = .ok argv ↔
      argv ≠ [] ∧ Renders argv (readStrEnv getenv name default)) ∧
    ∀ argv pre post, argv ≠ [] → (∀ c ∈ pre, isSpace c = true) → (∀ c ∈ post, isSpace c = true) →
      getenv name = some (pre ++ shlexJoin argv ++ post) →
      readArgvEnv getenv name default = .ok argv := by
  have hiff (argv : List Str) : readArgvEnv getenv name default = .ok argv ↔
      argv ≠ [] ∧ Renders argv (readStrEnv getenv name default) := by
    rw [readArgvEnv_eq_ok,shlexSplit_eq_iff]
  refine ⟨hiff,fun argv pre post hne hpre hpost hset => (hiff argv).mpr ⟨hne,?_⟩⟩
  rw [readStrEnv_pad (trimmed_shlexJoin argv) hpre hpost hset]
  exact renders_shlexJoin argv

/-- A command that is delegated through sudo. -/
theorem readArgvEnv_exact_sudo :
    readArgvEnv (fun _ => some (lit " sudo -n /usr/sbin/xfs_quota\n")) (lit "SESSION_QUOTA_COMMAND")
      (lit "xfs_quota") = .ok [lit "sudo",lit "-n",lit "/usr/sbin/xfs_quota"] :=
  (readArgvEnv_exact _ _ _).2 _ [0x20] [0xA] (by decide) (by simp; decide) (by simp; decide)
    (by decide)

end Readers

/-- How a setting is read, with its default and its bound. -/
inductive SettingKind
  | int (default : ℤ) (minValue : Option ℤ)
  | str (default : Str)
  | optionalStr
  | optionalPath
  | argv (default : Str)
  deriving DecidableEq, Repr

structure Setting where
  name : Str
  kind : SettingKind
  deriving DecidableEq, Repr

inductive Value
  | int (value : ℤ)
  | str (value : Str)
  | optional (value : Option Str)
  | argv (value : List Str)
  deriving DecidableEq, Repr

/-- What the import finds: the environment, the working directory, and the digits the interpreter
knows. -/
structure Process where
  getenv : Str → Option Str
  cwd : Str
  table : DigitTable

def Setting.read (p : Process) (s : Setting) : Except ConfigError Value :=
  match s.kind with
  | .int default minValue => (readIntEnv p.getenv p.table s.name default minValue).map .int
  | .str default => .ok (.str (readStrEnv p.getenv s.name default))
  | .optionalStr => (readOptionalStrEnv p.getenv s.name).map .optional
  | .optionalPath => (readOptionalPathEnv p.getenv p.cwd s.name).map .optional
  | .argv default => (readArgvEnv p.getenv s.name default).map .argv

/-- The settings in the order they are read in. -/
def settings : List Setting := [
  ⟨lit "HOST",.str (lit "127.0.0.1")⟩,
  ⟨lit "PORT",.int 40003 (some 1)⟩,
  ⟨lit "EXECUTION_TIMEOUT",.int 20 (some 1)⟩,
  ⟨lit "MAX_MEMORY",.str (lit "256M")⟩,
  ⟨lit "MAX_CPU_CORES",.int 1 (some 1)⟩,
  ⟨lit "MAX_OUTPUT_SIZE",.int (10 * 1024 * 1024) (some 1)⟩,
  ⟨lit "MAX_CODE_LENGTH",.int (64 * 1024) (some 1)⟩,
  ⟨lit "MAX_SESSION_SIZE",.int (100 * 1024 * 1024) (some 1)⟩,
  ⟨lit "MAX_SESSION_ENTRIES",.int 32768 (some 1)⟩,
  ⟨lit "MAX_RESULT_ATTACHMENTS",.int 256 (some 1)⟩,
  ⟨lit "MAX_SESSIONS",.int 64 (some 1)⟩,
  ⟨lit "MAX_CONCURRENT_EXECUTIONS",.int 4 (some 1)⟩,
  ⟨lit "CONTAINER_PIDS_LIMIT",.int 128 (some 1)⟩,
  ⟨lit "CONTAINER_USER_ID",.int 4000 (some 1)⟩,
  ⟨lit "CONTAINER_ULIMIT_NOFILE",.int 1024 (some 1)⟩,
  ⟨lit "CONTAINER_ULIMIT_FSIZE",.int (256 * 1024 * 1024) (some 1)⟩,
  ⟨lit "CONTAINER_RELATIVE_NICENESS",.int 5 none⟩,
  ⟨lit "CONTAINER_TMPFS_SIZE",.str (lit "64m")⟩,
  ⟨lit "CONTAINER_NETWORK",.str (lit "bridge")⟩,
  ⟨lit "PODMAN_IMAGE_PREFIX",.str (lit "code_executor")⟩,
  ⟨lit "PODMAN_CHECK_TIMEOUT_SECONDS",.int 5 (some 1)⟩,
  ⟨lit "SESSION_INACTIVITY_TIMEOUT_SECONDS",.int 1800 (some 1)⟩,
  ⟨lit "SESSION_SWEEP_INTERVAL_SECONDS",.int 60 (some 1)⟩,
  ⟨lit "SESSION_LOCK_WAIT_TIMEOUT_SECONDS",.int 30 (some 1)⟩,
  ⟨lit "SESSION_ROOT_DIRECTORY",.optionalPath⟩,
  ⟨lit "SESSION_QUOTA_MOUNTPOINT",.optionalStr⟩,
  ⟨lit "SESSION_QUOTA_COMMAND",.argv (lit "xfs_quota")⟩]

/-- `import config`: the first setting that is malformed ends it. -/
def importConfig (p : Process) : Except ConfigError (List Value) := settings.mapM (Setting.read p)

section Traversal
variable {α β ε : Type} {f : α → Except ε β}

theorem mapM_eq_ok {l : List α} {values : List β} :
    l.mapM f = .ok values ↔ List.Forall₂ (fun a b => f a = .ok b) l values := by
  induction l generalizing values with
  | nil =>
    rw [List.mapM_nil,List.forall₂_nil_left_iff]
    exact ⟨fun h => (Except.ok.inj h).symm,fun h => by rw [h]; rfl⟩
  | cons a l ih =>
    rw [List.mapM_cons,List.forall₂_cons_left_iff]
    cases hf : f a with
    | error e =>
      constructor
      · rintro ⟨⟩
      · rintro ⟨_,_,⟨⟩,_⟩
    | ok b =>
      cases hl : l.mapM f with
      | error e =>
        constructor
        · rintro ⟨⟩
        · rintro ⟨_,rest,_,h,_⟩
          rw [← ih,hl] at h
          cases h
      | ok rest =>
        constructor
        · rintro ⟨⟩
          exact ⟨b,rest,rfl,ih.mp hl,rfl⟩
        · rintro ⟨_,_,⟨⟩,h,rfl⟩
          rw [← ih,hl] at h
          cases h
          rfl

/-- The first element that fails ends it. -/
theorem mapM_eq_error {l : List α} {e : ε} : l.mapM f = .error e ↔
    ∃ before a after, l = before ++ a :: after ∧ (∀ b ∈ before, ∃ v, f b = .ok v) ∧
      f a = .error e := by
  induction l with
  | nil =>
    constructor
    · rintro ⟨⟩
    · rintro ⟨before,a,after,h,_⟩
      simp at h
  | cons a l ih =>
    rw [List.mapM_cons]
    cases hf : f a with
    | error e' =>
      constructor
      · rintro ⟨⟩
        exact ⟨[],a,l,rfl,by simp,hf⟩
      · rintro ⟨before,a',after,hl,hbefore,ha'⟩
        cases before with
        | nil =>
          cases hl
          rw [hf] at ha'
          cases ha'
          rfl
        | cons b before =>
          cases hl
          obtain ⟨v,hv⟩ := hbefore a (by simp)
          rw [hf] at hv
          cases hv
    | ok v =>
      have htail : (do let rest ← l.mapM f; pure (v :: rest)) = .error e ↔ l.mapM f = .error e := by
        cases l.mapM f with
        | error e' =>
          constructor
          all_goals
            rintro ⟨⟩
            rfl
        | ok rest =>
          constructor
          all_goals rintro ⟨⟩
      refine htail.trans (ih.trans ?_)
      constructor
      · rintro ⟨before,a',after,rfl,hbefore,ha'⟩
        refine ⟨a :: before,a',after,rfl,fun b hb => ?_,ha'⟩
        rcases List.mem_cons.mp hb with rfl | hb
        · exact ⟨v,hf⟩
        · exact hbefore b hb
      · rintro ⟨before,a',after,hl,hbefore,ha'⟩
        cases before with
        | nil =>
          cases hl
          rw [hf] at ha'
          cases ha'
        | cons b before =>
          cases hl
          exact ⟨before,a',after,rfl,fun b hb => hbefore b (List.mem_cons_of_mem _ hb),ha'⟩

end Traversal

/-- The values that a setting of this kind can have. -/
def SettingKind.Accepts : SettingKind → Value → Prop
  | .int _ minValue, .int value => ∀ bound ∈ minValue, bound ≤ value
  | .str _, .str value => Trimmed isSpace value
  | .optionalStr, .optional value => ∀ s ∈ value, s ≠ [] ∧ Trimmed isSpace s
  | .optionalPath, .optional value => ∀ path ∈ value, ∃ comps, Rooted path comps
  | .argv _, .argv value => value ≠ []
  | _, _ => False

/-- The value of a setting that is unset. A default command line is read like any other. -/
def SettingKind.default : SettingKind → Option Value
  | .int default _ => some (.int default)
  | .str default => some (.str default)
  | .optionalStr | .optionalPath => some (.optional none)
  | .argv default => (shlexSplit default).toOption.map .argv

/-- A text that sets a value. A slash after a path keeps a space at its end. -/
def SettingKind.render : SettingKind → Value → Option Str
  | _, .int value => some (signed value)
  | _, .str value => some value
  | .optionalPath, .optional (some path) =>
    some (if path.getLast? = some slash then path else path ++ [slash])
  | _, .optional value => value
  | _, .argv value => some (shlexJoin value)

/-- `int` reads numbers up to a length. -/
def Value.Short : Value → Prop
  | .int value => (decimal value.natAbs).length ≤ intMaxStrDigits
  | _ => True

/-- How the environment sets a value: not at all, or with a text that may stand between spaces. -/
inductive SettingKind.Sets (r : SettingKind) (v : Value) : Option Str → Prop
  | unset (h : r.default = some v) : Sets r v none
  | text {t pre post : Str} (h : r.render v = some t) (hpre : ∀ c ∈ pre, isIntSpace c = true)
      (hpost : ∀ c ∈ post, isIntSpace c = true) : Sets r v (some (pre ++ t ++ post))

/-- A default passes the check of its kind. -/
def SettingKind.checkDefault : SettingKind → Bool
  | .int default minValue => minValue.all (· ≤ default)
  | .str default => trim default = default
  | .optionalStr | .optionalPath => true
  | .argv default => (shlexSplit default).toOption.any (· ≠ [])

theorem SettingKind.accepts_default {r : SettingKind} (h : r.checkDefault = true) :
    ∃ v, r.default = some v ∧ r.Accepts v := by
  cases r with
  | int default minValue =>
    rw [checkDefault,Option.all_eq_true] at h
    exact ⟨_,rfl,fun bound hbound => of_decide_eq_true (h bound hbound)⟩
  | str default =>
    have htrim : trim default = default := by simpa [checkDefault] using h
    refine ⟨_,rfl,?_⟩
    rw [← htrim]
    exact trimmed_stripWith isSpace default
  | optionalStr | optionalPath => exact ⟨_,rfl,by simp [Accepts]⟩
  | argv default =>
    obtain ⟨argv,hargv,hne⟩ := (Option.any_eq_true _ _).mp h
    have hne : argv ≠ [] := by simpa using hne
    exact ⟨.argv argv,by rw [SettingKind.default,hargv]; rfl,hne⟩

theorem checkDefault_settings : ∀ s ∈ settings, s.kind.checkDefault = true := by decide

theorem settings_nodup : (settings.map Setting.name).Nodup := by decide

theorem Except.map_eq_ok {ε α β : Type} {f : α → β} {x : Except ε α} {b : β} :
    x.map f = .ok b ↔ ∃ a, x = .ok a ∧ f a = b := by
  cases x with
  | error e => simp [Except.map]
  | ok a => simp [Except.map]

theorem Except.map_eq_error {ε α β : Type} {f : α → β} {x : Except ε α} {e : ε} :
    x.map f = .error e ↔ x = .error e := by
  cases x with
  | error e => simp [Except.map]
  | ok a => simp [Except.map]

namespace Setting
variable {p : Process} {s : Setting} {v : Value}

/-- A setting has a value of its kind once it is read. -/
theorem accepts_of_read (hcwd : p.cwd.head? = some slash) (hs : s.kind.checkDefault = true)
    (h : s.read p = .ok v) : s.kind.Accepts v := by
  obtain ⟨name,kind⟩ := s
  cases kind with
  | int default minValue =>
    obtain ⟨n,hn,rfl⟩ := Except.map_eq_ok.mp h
    rcases readIntEnv_eq_ok.mp hn with ⟨-,rfl⟩ | ⟨rawValue,-,-,hbound⟩
    · obtain ⟨v,hv,haccepts⟩ := SettingKind.accepts_default hs
      cases hv
      exact haccepts
    · exact hbound
  | str default =>
    cases h
    change Trimmed isSpace (readStrEnv p.getenv name default)
    unfold readStrEnv
    cases p.getenv name with
    | none =>
      obtain ⟨v,hv,haccepts⟩ := SettingKind.accepts_default hs
      cases hv
      exact haccepts
    | some rawValue => exact trimmed_stripWith isSpace rawValue
  | optionalStr =>
    obtain ⟨value,hvalue,rfl⟩ := Except.map_eq_ok.mp h
    rcases readOptionalStrEnv_eq_ok.mp hvalue with ⟨-,rfl⟩ | ⟨rawValue,-,hne,rfl⟩
    · rintro t ⟨⟩
    · rintro t ⟨⟩
      exact ⟨hne,trimmed_stripWith isSpace rawValue⟩
  | optionalPath =>
    obtain ⟨value,hvalue,rfl⟩ := Except.map_eq_ok.mp h
    obtain ⟨value,-,rfl⟩ := Except.map_eq_ok.mp hvalue
    intro path hpath
    obtain ⟨t,-,rfl⟩ := Option.map_eq_some_iff.mp hpath
    exact rooted_abspath hcwd t
  | argv default =>
    obtain ⟨argv,hargv,rfl⟩ := Except.map_eq_ok.mp h
    exact (readArgvEnv_eq_ok.mp hargv).1

/-- An unset setting has its default. -/
theorem read_of_unset (hset : p.getenv s.name = none) (hv : s.kind.default = some v)
    (h : s.kind.Accepts v) : s.read p = .ok v := by
  obtain ⟨name,kind⟩ := s
  cases kind with
  | int default minValue =>
    cases hv
    exact Except.map_eq_ok.mpr ⟨_,readIntEnv_eq_ok.mpr (.inl ⟨hset,rfl⟩),rfl⟩
  | str default =>
    cases hv
    change Except.ok (Value.str (readStrEnv p.getenv name default)) = _
    rw [readStrEnv,hset]
  | optionalStr =>
    cases hv
    exact Except.map_eq_ok.mpr ⟨_,readOptionalStrEnv_eq_ok.mpr (.inl ⟨hset,rfl⟩),rfl⟩
  | optionalPath =>
    cases hv
    have hnone := readOptionalStrEnv_eq_ok.mpr (.inl ⟨hset,rfl⟩)
    exact Except.map_eq_ok.mpr ⟨_,Except.map_eq_ok.mpr ⟨_,hnone,rfl⟩,rfl⟩
  | argv default =>
    obtain ⟨argv,hargv,rfl⟩ := Option.map_eq_some_iff.mp hv
    refine Except.map_eq_ok.mpr ⟨argv,readArgvEnv_eq_ok.mpr ⟨h,?_⟩,rfl⟩
    rw [readStrEnv,hset]
    dsimp only
    cases hsplit : shlexSplit default with
    | error exc =>
      rw [hsplit] at hargv
      cases hargv
    | ok argv' =>
      rw [hsplit] at hargv
      cases hargv
      rfl

/-- A path is set with a slash at its end. -/
theorem abspath_render {path : Str} {comps : List Str} (h : Rooted path comps) (cwd : Str) :
    ∃ t, SettingKind.render .optionalPath (.optional (some path)) = some t ∧ t ≠ [] ∧
      Trimmed isSpace t ∧ abspath cwd t = path := by
  have hslash : isSpace slash = false := by decide
  have htrimmed {t : Str} (hhead : t.head? = some slash) (hlast : t.getLast? = some slash) :
      Trimmed isSpace t := by
    rintro c (hc | hc)
    · cases hhead.symm.trans hc
      exact hslash
    · cases hlast.symm.trans hc
      exact hslash
  have hpath : path ≠ [] := fun hnil => by
    have hhead := h.head
    rw [hnil] at hhead
    cases hhead
  by_cases hlast : path.getLast? = some slash
  · exact ⟨path,congrArg some (if_pos hlast),hpath,htrimmed h.head hlast,h.abspath cwd⟩
  · have hne : comps ≠ [] := by
      rintro rfl
      rcases h.shape with hp | hp
      · exact hlast (by rw [hp]; rfl)
      · exact hlast (by rw [hp]; rfl)
    have hhead : (path ++ [slash]).head? = some slash := h.head_below []
    have habs : abspath cwd (path ++ [slash]) = path := by
      have hnil : split [] = [[]] := List.splitOn_nil slash
      rw [abspath,if_pos hhead,h.normpath_below hne [],hnil,List.foldl_cons,normStep,
        if_pos (.inl rfl)]
      exact h.initialSlashes_eq.symm
    exact ⟨path ++ [slash],congrArg some (if_neg hlast),by simp,htrimmed hhead (by simp),habs⟩

/-- A setting that is set with a text of a value has this value. -/
theorem read_of_text {t pre post : Str} (h : s.kind.Accepts v) (hshort : v.Short)
    (ht : s.kind.render v = some t) (hpre : ∀ c ∈ pre, isIntSpace c = true)
    (hpost : ∀ c ∈ post, isIntSpace c = true)
    (hset : p.getenv s.name = some (pre ++ t ++ post)) : s.read p = .ok v := by
  have hpre' : ∀ c ∈ pre, isSpace c = true := fun c hc => isSpace_of_isIntSpace (hpre c hc)
  have hpost' : ∀ c ∈ post, isSpace c = true := fun c hc => isSpace_of_isIntSpace (hpost c hc)
  have hstr {t : Str} (hset : p.getenv s.name = some (pre ++ t ++ post)) (hne : t ≠ [])
      (htrimmed : Trimmed isSpace t) : readOptionalStrEnv p.getenv s.name = .ok (some t) := by
    have htrim : trim (pre ++ t ++ post) = t := stripWith_pad htrimmed hpre' hpost'
    exact readOptionalStrEnv_eq_ok.mpr (.inr ⟨_,hset,by rwa [htrim],by rw [htrim]⟩)
  obtain ⟨name,kind⟩ := s
  cases kind with
  | int default minValue =>
    cases v with
    | int n =>
      cases ht
      have hread := signedInt_signed p.table hshort hpre hpost
      exact Except.map_eq_ok.mpr ⟨n,readIntEnv_eq_ok.mpr (.inr ⟨_,hset,hread,h⟩),rfl⟩
    | str | optional | argv => cases h
  | str default =>
    cases v with
    | str value =>
      cases ht
      exact congrArg (fun t => Except.ok (Value.str t)) (readStrEnv_pad h hpre' hpost' hset)
    | int | optional | argv => cases h
  | optionalStr =>
    cases v with
    | optional value =>
      cases value with
      | none => cases ht
      | some value =>
        cases ht
        obtain ⟨hne,htrimmed⟩ := h _ rfl
        exact Except.map_eq_ok.mpr ⟨_,hstr hset hne htrimmed,rfl⟩
    | int | str | argv => cases h
  | optionalPath =>
    cases v with
    | optional value =>
      cases value with
      | none => cases ht
      | some path =>
        obtain ⟨comps,hrooted⟩ := h path rfl
        obtain ⟨t',ht',hne,htrimmed,habs⟩ := abspath_render hrooted p.cwd
        cases ht.symm.trans ht'
        refine Except.map_eq_ok.mpr ⟨_,Except.map_eq_ok.mpr ⟨_,hstr hset hne htrimmed,rfl⟩,?_⟩
        rw [Option.map_some,habs]
    | int | str | argv => cases h
  | argv default =>
    cases v with
    | argv argv =>
      cases ht
      refine Except.map_eq_ok.mpr ⟨argv,readArgvEnv_eq_ok.mpr ⟨h,?_⟩,rfl⟩
      rw [readStrEnv_pad (trimmed_shlexJoin argv) hpre' hpost' hset]
      exact shlexSplit_shlexJoin argv
    | int | str | optional => cases h

/-- The error of a setting begins with its name. -/
theorem message_of_error {e : ConfigError} (h : s.read p = .error e) :
    ∃ reason, e.message = s.name ++ lit " must " ++ reason := by
  have hempty : ∃ reason, s.name ++ lit " must not be empty." =
      s.name ++ lit " must " ++ reason := ⟨lit "not be empty.",by rw [List.append_assoc]; rfl⟩
  have hstr {e : ConfigError} (h : readOptionalStrEnv p.getenv s.name = .error e) :
      ∃ reason, e.message = s.name ++ lit " must " ++ reason := by
    unfold readOptionalStrEnv at h
    cases hget : p.getenv s.name with
    | none =>
      rw [hget] at h
      cases h
    | some rawValue =>
      rw [hget] at h
      dsimp only at h
      split_ifs at h
      cases h
      exact hempty
  obtain ⟨name,kind⟩ := s
  cases kind with
  | int default minValue =>
    have h := Except.map_eq_error.mp h
    unfold readIntEnv at h
    cases hget : p.getenv name with
    | none =>
      rw [hget] at h
      cases h
    | some rawValue =>
      rw [hget] at h
      dsimp only at h
      cases hvalue : p.table.signedInt rawValue with
      | none =>
        rw [hvalue] at h
        cases h
        exact ⟨lit "be an integer.",by rw [List.append_assoc]; rfl⟩
      | some value =>
        rw [hvalue] at h
        cases minValue with
        | none => cases h
        | some bound =>
          dsimp only at h
          split_ifs at h
          cases h
          refine ⟨lit "be >= " ++ signed bound ++ lit ".",?_⟩
          have hmust : lit " must be >= " = lit " must " ++ lit "be >= " := rfl
          simp only [hmust,List.append_assoc]
  | str default => cases h
  | optionalStr => exact hstr (Except.map_eq_error.mp h)
  | optionalPath => exact hstr (Except.map_eq_error.mp (Except.map_eq_error.mp h))
  | argv default =>
    have h := Except.map_eq_error.mp h
    unfold readArgvEnv at h
    cases hsplit : shlexSplit (readStrEnv p.getenv name default) with
    | error exc =>
      rw [hsplit] at h
      cases h
      refine ⟨lit "be a valid command line: " ++ exc.message,?_⟩
      have hmust : lit " must be a valid command line: " =
        lit " must " ++ lit "be a valid command line: " := rfl
      simp only [hmust,List.append_assoc]
    | ok argv =>
      rw [hsplit] at h
      dsimp only at h
      split_ifs at h
      cases h
      exact hempty

end Setting

/-- Each value that passes can be set; only an optional one is left out. -/
theorem SettingKind.exists_sets {r : SettingKind} {v : Value} (h : r.Accepts v) :
    ∃ raw, r.Sets v raw := by
  have htext {t : Str} (ht : r.render v = some t) : ∃ raw, r.Sets v raw :=
    ⟨some ([] ++ t ++ []),.text ht (by simp) (by simp)⟩
  cases v with
  | int value => exact htext rfl
  | str value => exact htext rfl
  | argv value => exact htext rfl
  | optional value =>
    cases r with
    | int | str | argv => cases h
    | optionalStr | optionalPath =>
      cases value with
      | none => exact ⟨none,.unset rfl⟩
      | some value => exact htext rfl

/-- Settings of different names can be set one by one. -/
theorem exists_getenv {β : Type} {R : Setting → β → Option Str → Prop} {l : List Setting}
    {values : List β} (hl : (l.map Setting.name).Nodup)
    (h : List.Forall₂ (fun s v => ∃ raw, R s v raw) l values) :
    ∃ getenv : Str → Option Str, List.Forall₂ (fun s v => R s v (getenv s.name)) l values := by
  induction h with
  | nil => exact ⟨fun _ => none,.nil⟩
  | @cons s v l values hs htail ih =>
    rw [List.map_cons,List.nodup_cons] at hl
    obtain ⟨raw,hraw⟩ := hs
    obtain ⟨getenv,hgetenv⟩ := ih hl.2
    have hother : ∀ t ∈ l, t.name ≠ s.name := fun t ht heq =>
      hl.1 (heq ▸ List.mem_map_of_mem ht)
    refine ⟨fun name => if name = s.name then raw else getenv name,.cons ?_ ?_⟩
    · simpa using hraw
    · refine ((List.forall₂_and_left _ _).mpr ⟨hother,hgetenv⟩).imp fun t v ⟨hne,hR⟩ => ?_
      simpa [hne] using hR

/-- The whole import: what it yields has passed every check; it fails with the error of the first
setting that is malformed, and the error of a setting names it; the environment that sets each value
that passes, or leaves a default unset, yields these values if `int` takes that many digits; and there
is such an environment. -/
theorem importConfig_exact (p : Process) (hcwd : p.cwd.head? = some slash) :
    (∀ values, importConfig p = .ok values →
      List.Forall₂ (fun (s : Setting) v => s.kind.Accepts v) settings values) ∧
    (∀ e, importConfig p = .error e ↔ ∃ before s after, settings = before ++ s :: after ∧
      (∀ t ∈ before, ∃ v, Setting.read p t = .ok v) ∧ s.read p = .error e) ∧
    (∀ (s : Setting) e, s.read p = .error e →
      ∃ reason, e.message = s.name ++ lit " must " ++ reason) ∧
    (∀ values, List.Forall₂ (fun (s : Setting) v => s.kind.Accepts v ∧ v.Short ∧
      s.kind.Sets v (p.getenv s.name)) settings values → importConfig p = .ok values) ∧
    ∀ values, List.Forall₂ (fun (s : Setting) v => s.kind.Accepts v ∧ v.Short) settings values →
      ∃ getenv, importConfig { p with getenv := getenv } = .ok values := by
  have hread {p : Process} {s : Setting} {v : Value} : s.kind.Accepts v → v.Short →
      s.kind.Sets v (p.getenv s.name) → s.read p = .ok v := by
    intro haccepts hshort hsets
    generalize hraw : p.getenv s.name = raw at hsets
    cases hsets with
    | unset hv => exact Setting.read_of_unset hraw hv haccepts
    | text ht hpre hpost => exact Setting.read_of_text haccepts hshort ht hpre hpost hraw
  refine ⟨fun values h => ?_,fun e => mapM_eq_error,fun s e => Setting.message_of_error,
    fun values h => ?_,fun values h => ?_⟩
  · have hall := (List.forall₂_and_left _ _).mpr ⟨checkDefault_settings,mapM_eq_ok.mp h⟩
    exact hall.imp fun s v ⟨hs,hv⟩ => Setting.accepts_of_read hcwd hs hv
  · exact mapM_eq_ok.mpr (h.imp fun s v ⟨haccepts,hshort,hsets⟩ => hread haccepts hshort hsets)
  · have hsome : List.Forall₂ (fun (s : Setting) v => ∃ raw, s.kind.Accepts v ∧ v.Short ∧
        s.kind.Sets v raw) settings values := by
      refine h.imp fun s v ⟨haccepts,hshort⟩ => ?_
      obtain ⟨raw,hraw⟩ := SettingKind.exists_sets haccepts
      exact ⟨raw,haccepts,hshort,hraw⟩
    obtain ⟨getenv,hgetenv⟩ := exists_getenv settings_nodup hsome
    exact ⟨getenv,mapM_eq_ok.mpr (hgetenv.imp fun s v ⟨haccepts,hshort,hsets⟩ =>
      hread haccepts hshort hsets)⟩

/-- A port that is out of range ends the import. -/
theorem importConfig_exact_port :
    importConfig ⟨fun name => if name = lit "PORT" then some (lit " 0 ") else none,lit "/srv/api",
      .ascii⟩ = .error ⟨lit "PORT must be >= 1."⟩ := by
  refine ((importConfig_exact _ rfl).2.1 _).mpr ⟨settings.take 1,⟨lit "PORT",.int 40003 (some 1)⟩,
    settings.drop 2,rfl,?_,by decide⟩
  intro t ht
  rw [List.mem_singleton.mp ht]
  exact ⟨_,rfl⟩

end CodeExecutorApi
