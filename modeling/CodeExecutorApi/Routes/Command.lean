import CodeExecutorApi.ContentDisposition
import CodeExecutorApi.Python.Numerals
import CodeExecutorApi.Routes.Staging

/-! The `podman run` command of an accepted request. Its last argument is the code, which was
measured as the bytes that came in, and is passed on as the bytes it is encoded to. -/
namespace CodeExecutorApi
open Python Posix Machine

/-- The settings the command is made of. -/
structure ContainerSettings where
  pidsLimit : ℕ
  ulimitNofile : ℕ
  ulimitFsize : ℕ
  userId : ℕ
  network : Str
  tmpfsSize : Str
  maxMemory : Str
  maxCpuCores : ℕ
  imagePrefix : Str
  relativeNiceness : ℤ

structure LanguageRuntime where
  image : Str
  command : List Str

/-- `LANGUAGES` -/
def runtimes : List (Str × LanguageRuntime) :=
  [(lit "python",⟨lit "python",[lit "python",lit "-c"]⟩),
    (lit "bash",⟨lit "bash",[lit "bash",lit "-c"]⟩),
    (lit "javascript",⟨lit "node",[lit "node",lit "--eval"]⟩),
    (lit "typescript",⟨lit "node",[lit "tsx",lit "--eval"]⟩),
    (lit "c",⟨lit "gcc",[lit "/executors/c.sh"]⟩),
    (lit "cpp",⟨lit "gcc",[lit "/executors/cpp.sh"]⟩),
    (lit "java",⟨lit "java",[lit "/executors/java.sh"]⟩),
    (lit "csharp",⟨lit "dotnet",[lit "/executors/csharp.sh"]⟩),
    (lit "rust",⟨lit "rust",[lit "/executors/rust.sh"]⟩)]

/-- Every language a request may name has a runtime, and no other. -/
theorem runtimes_languages : runtimes.map Prod.fst = languages := by decide

/-- `str(n)` of an integer. -/
def decimalInt : ℤ → Str
  | .ofNat n => decimal n
  | .negSucc n => lit "-" ++ decimal (n+1)

/-- The arguments of `create_subprocess_exec`. -/
def podmanRun (settings : ContainerSettings) (runtime : LanguageRuntime)
    (workDirectory containerName : Str) (currentNiceness : ℤ) (code : Str) : List Str :=
  [lit "podman",lit "run",lit "--pull=never",lit "--read-only",lit "--cap-drop=ALL",
    lit "--security-opt=no-new-privileges",lit "--pids-limit",decimal settings.pidsLimit,
    lit "--ulimit",lit "nofile=" ++ decimal settings.ulimitNofile ++ lit ":" ++
      decimal settings.ulimitNofile,
    lit "--ulimit",lit "fsize=" ++ decimal settings.ulimitFsize ++ lit ":" ++
      decimal settings.ulimitFsize,
    lit "--cgroupns=private",
    lit "--userns=keep-id:uid=" ++ decimal settings.userId ++ lit ",gid=" ++
      decimal settings.userId,
    lit "--user=" ++ decimal settings.userId ++ lit ":" ++ decimal settings.userId,
    lit "--ipc=none",lit "--net=" ++ settings.network,
    lit "--sysctl",lit "net.ipv4.ping_group_range=" ++ decimal settings.userId ++ lit " " ++
      decimal settings.userId,
    lit "--tmpfs",lit "/tmp:rw,nosuid,nodev,exec,size=" ++ settings.tmpfsSize,
    lit "--interactive",lit "--tty",lit "--rm",
    lit "--label",lit "code_executor_api.managed=true",
    lit "--memory=" ++ settings.maxMemory,lit "--memory-swap=" ++ settings.maxMemory,
    lit "--cpus=" ++ decimal settings.maxCpuCores,
    lit "--volume",workDirectory ++ lit ":/app/",
    lit "--name",containerName,
    settings.imagePrefix ++ lit "-" ++ runtime.image,
    lit "nice",lit "-n",decimalInt (currentNiceness+settings.relativeNiceness)] ++
  runtime.command ++ [code]

theorem podmanRun_getLast (settings : ContainerSettings) (runtime : LanguageRuntime)
    (workDirectory containerName : Str) (currentNiceness : ℤ) (code : Str) :
    (podmanRun settings runtime workDirectory containerName currentNiceness code).getLast? =
      some code := List.getLast?_concat

/-- An argument the kernel can be given: it has an encoding, of at most `maxLength` bytes, none of
them NUL. -/
def FitsEntry (maxLength : ℕ) (argument : Str) : Prop :=
  ∃ entry, fsencode argument = some entry ∧ entry.length ≤ maxLength ∧ 0 ∉ entry

/-- A surrogate that stands for a byte. -/
def isEscape (c : CodePoint) : Bool := 0xDC80 ≤ c.val ∧ c.val < 0xDD00

/-- The bytes UTF-8 spends on a string: one for each character, one more for each from U+0080 on,
for each from U+0800 on and for each from U+10000 on, where an escape is one byte. -/
def utf8Length (s : Str) : ℕ :=
  s.length + (s.countP fun c => decide (0x80 ≤ c.val) && !isEscape c) +
    (s.countP fun c => decide (0x800 ≤ c.val) && !isEscape c) +
      s.countP fun c => decide (0x10000 ≤ c.val)

section Encoding

theorem encodeChar_length {c : CodePoint} {b : Bytes} (h : encodeChar c = some b) :
    b.length = utf8Length [c] := by
  unfold encodeChar at h
  simp only [isSurrogate,decide_eq_true_eq] at h
  simp only [utf8Length,isEscape,List.countP_cons,List.countP_nil,Bool.and_eq_true,
    decide_eq_true_eq,Bool.not_eq_true',decide_eq_false_iff_not]
  split_ifs at h
  all_goals
    cases h
    simp only [List.length_cons,List.length_nil]
    split_ifs <;> omega

theorem utf8Length_cons (c : CodePoint) (s : Str) :
    utf8Length (c :: s) = utf8Length [c] + utf8Length s := by
  simp only [utf8Length,List.length_cons,List.countP_cons,List.length_nil,List.countP_nil]
  omega

theorem fsencode_length {s : Str} {b : Bytes} (h : fsencode s = some b) :
    b.length = utf8Length s := by
  induction s generalizing b with
  | nil =>
    cases h
    rfl
  | cons c s ih =>
    obtain ⟨x,r,hx,hr,rfl⟩ := fsencode_cons.mp h
    rw [List.length_append,encodeChar_length hx,ih hr,utf8Length_cons c s]

theorem encodeChar_isSome {c : CodePoint} :
    (∃ b, encodeChar c = some b) ↔ isSurrogate c = true → isEscape c = true := by
  have hc := c.isLt
  unfold encodeChar isSurrogate isEscape
  simp only [decide_eq_true_eq]
  split_ifs with h1 h2 h3 h4
  all_goals simp
  all_goals omega

/-- A string can be encoded if its surrogates are escapes. -/
theorem fsencode_isSome {s : Str} :
    (∃ b, fsencode s = some b) ↔ ∀ c ∈ s, isSurrogate c = true → isEscape c = true := by
  induction s with
  | nil => simp [fsencode]
  | cons c s ih =>
    rw [List.forall_mem_cons,← ih,← encodeChar_isSome]
    constructor
    · intro h
      obtain ⟨b,hb⟩ := h
      obtain ⟨x,r,hx,hr,_⟩ := fsencode_cons.mp hb
      exact ⟨⟨x,hx⟩,r,hr⟩
    · intro h
      obtain ⟨⟨x,hx⟩,r,hr⟩ := h
      exact ⟨x ++ r,fsencode_cons.mpr ⟨x,r,hx,hr,rfl⟩⟩

/-- Without a NUL in the string there is none in its encoding. -/
theorem fitsEntry_iff {s : Str} {maxLength : ℕ} (hs : 0 ∉ s) : FitsEntry maxLength s ↔
    (∀ c ∈ s, isSurrogate c = true → isEscape c = true) ∧ utf8Length s ≤ maxLength := by
  rw [← fsencode_isSome]
  constructor
  · intro h
    obtain ⟨b,hb,hlen,_⟩ := h
    exact ⟨⟨b,hb⟩,fsencode_length hb ▸ hlen⟩
  · intro h
    obtain ⟨⟨b,hb⟩,hlen⟩ := h
    refine ⟨b,hb,fsencode_length hb ▸ hlen,fun h0 => ?_⟩
    obtain ⟨c,hc,hval⟩ := mem_of_mem_fsencode hb h0 (by decide)
    have hzero : c = 0 := Fin.ext hval
    exact hs (hzero ▸ hc)

end Encoding

/-- What a body holds, up to the first read that gives nothing. -/
def received : List (Except (Exc AppError) Bytes) → Bytes
  | .ok (b :: bs) :: reads => (b :: bs) ++ received reads
  | _ => []

def Content.received (content : Content) : Bytes :=
  CodeExecutorApi.received (prepareReader content)

section Reading

/-- A body that is read was read whole, and is not too long. -/
theorem readLoop_returns {maxSize : ℕ} {written : Bytes} (hw : written.length ≤ maxSize)
    (reads : List (Except (Exc AppError) Bytes)) :
    (readLoop maxSize written reads).Returns fun content =>
      content = written ++ received reads ∧ content.length ≤ maxSize := by
  induction reads generalizing written with
  | nil =>
    apply Program.Returns.pure
    exact ⟨(List.append_nil _).symm,hw⟩
  | cons read reads ih =>
    refine (Program.Returns.trivial _).bind fun _ _ => ?_
    cases read with
    | error e => exact .raise _
    | ok chunk =>
      cases chunk with
      | nil =>
        apply Program.Returns.pure
        exact ⟨(List.append_nil _).symm,hw⟩
      | cons b chunk =>
        dsimp only
        split_ifs with hlong
        · exact .raise _
        · have hlen : (written ++ b :: chunk).length ≤ maxSize := by
            rw [List.length_append]
            omega
          have hrest := ih hlen
          rw [List.append_assoc] at hrest
          exact hrest

theorem readTextPart_returns (part : Part) (maxSize : ℕ) :
    (readTextPart part maxSize).Returns fun text => part.decode part.content.received = .ok text ∧
      part.content.received.length ≤ maxSize := by
  refine (readLoop_returns (Nat.zero_le maxSize) _).bind fun content hcontent => ?_
  obtain ⟨hread,hlen⟩ := hcontent
  rw [List.nil_append] at hread
  subst hread
  split
  · next text htext => exact .pure ⟨htext,hlen⟩
  · exact .raise _
  · exact .raise _

/-- The part that the code of a request is taken from: the last one of that name. -/
def codePart : List (Except (Exc AppError) Part) → Option Part
  | .ok part :: body =>
    (codePart body).or (if part.name = some (lit "code") then some part else none)
  | _ => none

/-- `code` is what the charset of the part makes of its content, which is not too long. -/
def Part.Gives (limits : Limits) (part : Part) (code : Option Str) : Prop :=
  ∃ text, code = some text ∧ part.decode part.content.received = .ok text ∧
    part.content.received.length ≤ limits.maxCodeLength

variable {limits : Limits} {workDirectory : Str}

theorem during_returns {α : Type} {phase : Phase} {x : Api α} {P : α → Prop} (h : x.Returns P) :
    (during phase x).Returns P := by
  intro w a ha
  unfold during Program.mapError at ha
  cases hx : (x w).1 with
  | error e =>
    rw [hx] at ha
    cases ha
  | ok b =>
    rw [hx] at ha
    cases ha
    exact h w a hx

variable (limits workDirectory) in
theorem readPart_code (fields : Fields) (part : Part) :
    (readPart limits workDirectory fields part).Returns fun r => ∀ fields', r = .ok fields' →
      if part.name = some (lit "code") then part.Gives limits fields'.code
      else fields'.code = fields.code := by
  unfold readPart
  by_cases hcode : part.name = some (lit "code")
  · have hlanguage : ¬part.name = some (lit "language") := by
      rw [hcode]
      decide
    rw [if_neg hlanguage,if_pos hcode]
    simp only [if_pos hcode]
    refine (during_returns (readTextPart_returns part _)).bind fun text htext => ?_
    apply Program.Returns.pure
    intro fields' hfields
    cases hfields
    exact ⟨text,rfl,htext.1,htext.2⟩
  · simp only [if_neg hcode]
    split_ifs with hlanguage hattachments
    · refine (Program.Returns.trivial _).bind fun language _ => ?_
      apply Program.Returns.pure
      intro fields' hfields
      cases hfields
      rfl
    · cases part.filename with
      | none =>
        apply Program.Returns.pure
        intro fields' hfields
        cases hfields
      | some filename =>
        refine (Program.Returns.trivial _).bind fun staged _ => ?_
        apply Program.Returns.pure
        intro fields' hfields
        cases hfields
        rfl
    · apply Program.Returns.pure
      intro fields' hfields
      cases hfields

/-- The code once all parts are read. -/
theorem readParts_code (fields : Fields) (body : List (Except (Exc AppError) Part)) :
    (readParts limits workDirectory fields body).Returns fun r => r.2 = .fallsThrough →
      match codePart body with
      | none => r.1.code = fields.code
      | some part => part.Gives limits r.1.code := by
  induction body generalizing fields with
  | nil =>
    apply Program.Returns.pure
    intro _
    rfl
  | cons read body ih =>
    cases read with
    | error e =>
      apply Program.Returns.pure
      intro hleft
      cases hleft
    | ok part =>
      have hpart := Program.Returns.attempt (P := fun _ => True) (fun _ _ _ => True.intro)
        (readPart_code limits workDirectory fields part)
      refine hpart.bind fun outcome houtcome => ?_
      cases outcome with
      | error fault =>
        apply Program.Returns.pure
        intro hleft
        cases hleft
      | ok left =>
        cases left with
        | error response =>
          apply Program.Returns.pure
          intro hleft
          cases hleft
        | ok fields' =>
          have hcode := houtcome fields' rfl
          intro w r hr hleft
          have hrest := ih fields' w r hr hleft
          rw [codePart]
          cases hlater : codePart body with
          | some later =>
            rw [hlater] at hrest
            exact hrest
          | none =>
            rw [hlater] at hrest
            simp only [Option.none_or]
            split_ifs at hcode ⊢ with hname
            · exact hrest ▸ hcode
            · exact hrest.trans hcode

theorem validateCode_ok {given : Option Str} {code : Str} (h : validateCode given = .ok code) :
    given = some code ∧ 0 ∉ code := by
  cases given with
  | none => cases h
  | some text =>
    unfold validateCode at h
    dsimp only at h
    split_ifs at h with hnul
    cases h
    exact ⟨rfl,hnul⟩

theorem validateAndCommit_valid (fields : Fields) (left : Left) :
    (validateAndCommit workDirectory fields left).Returns fun r => r.2 = .fallsThrough →
      left = .fallsThrough ∧ ∃ code, fields.code = some code ∧ 0 ∉ code := by
  cases left with
  | returns response =>
    apply Program.Returns.pure
    intro hleft
    cases hleft
  | raises fault =>
    apply Program.Returns.pure
    intro hleft
    cases hleft
  | fallsThrough =>
    unfold validateAndCommit
    dsimp only
    split
    · apply Program.Returns.pure
      intro hleft
      cases hleft
    · apply Program.Returns.pure
      intro hleft
      cases hleft
    · next code _ hcode =>
      intro w r _ _
      exact ⟨rfl,code,validateCode_ok hcode⟩

/-- A request that is accepted has its code from its code part, and the code is valid. -/
theorem stagingBlock_code (body : List (Except (Exc AppError) Part)) :
    (stagingBlock limits workDirectory body).Returns fun r => ∀ fields, r = .ok fields →
      ∃ part code, codePart body = some part ∧ fields.code = some code ∧
        part.Gives limits (some code) ∧ 0 ∉ code := by
  refine (readParts_code ⟨none,none,[]⟩ body).bind fun r hr => ?_
  obtain ⟨fields,left⟩ := r
  refine (validateAndCommit_valid fields (malformed left)).bind fun r' hr' => ?_
  obtain ⟨staged,left'⟩ := r'
  refine (Program.Returns.trivial _).bind fun _ _ => ?_
  cases left' with
  | returns response =>
    apply Program.Returns.pure
    intro fields' hfields
    cases hfields
  | raises fault => exact .raise _
  | fallsThrough =>
    apply Program.Returns.pure
    intro fields' hfields
    cases hfields
    obtain ⟨hmalformed,code,hcode,hnul⟩ := hr' rfl
    have hgives := hr (malformed_eq_fallsThrough hmalformed)
    dsimp only at hgives
    cases hpart : codePart body with
    | none =>
      rw [hpart,hcode] at hgives
      cases hgives
    | some part =>
      rw [hpart,hcode] at hgives
      exact ⟨part,code,rfl,hcode,hgives,hnul⟩

end Reading

/-- What the charset of the part makes of its content can be encoded, to at most `maxLength`
bytes. -/
def Part.Fits (part : Part) (maxLength : ℕ) : Prop :=
  ∀ text, part.decode part.content.received = .ok text →
    (∀ c ∈ text, isSurrogate c = true → isEscape c = true) ∧ utf8Length text ≤ maxLength

section Fits
variable {part : Part} {maxLength : ℕ}

/-- In UTF-8, the default, a text is encoded to the bytes it came from. -/
theorem fits_utf8 (hutf8 : part.decode = strict decodeUtf8)
    (hlen : part.content.received.length ≤ maxLength) : part.Fits maxLength := by
  intro text htext
  rw [hutf8,strict_eq_ok,decodeUtf8] at htext
  split_ifs at htext
  cases htext
  have hback := fsencode_fsdecode part.content.received
  exact ⟨fsencode_isSome.mp ⟨_,hback⟩,fsencode_length hback ▸ hlen⟩

/-- `bytes.decode("latin-1")` -/
def decodeLatin1 (b : Bytes) : Option Str := some (b.map fun a => Fin.ofNat _ a.val)

theorem utf8Length_latin1 (b : Bytes) : utf8Length (b.map fun a => Fin.ofNat _ a.val) =
    b.length + b.countP fun a => decide (0x80 ≤ a.val) := by
  induction b with
  | nil => rfl
  | cons a b ih =>
    have ha := a.isLt
    have hval : (Fin.ofNat 0x110000 a.val).val = a.val := Nat.mod_eq_of_lt (by omega)
    rw [List.map_cons,utf8Length_cons,ih]
    simp only [utf8Length,isEscape,List.countP_cons,List.countP_nil,List.length_cons,
      List.length_nil,hval,Bool.and_eq_true,decide_eq_true_eq,Bool.not_eq_true',
      decide_eq_false_iff_not]
    split_ifs <;> omega

/-- In Latin-1 every byte from 0x80 on counts twice. -/
theorem fits_latin1 (hlatin1 : part.decode = strict decodeLatin1) : part.Fits maxLength ↔
    part.content.received.length + (part.content.received.countP fun a => decide (0x80 ≤ a.val)) ≤
      maxLength := by
  rw [← utf8Length_latin1]
  have hplain : ∀ c ∈ part.content.received.map fun a => (Fin.ofNat _ a.val : CodePoint),
      isSurrogate c = true → isEscape c = true := by
    intro c hc hsurrogate
    obtain ⟨a,_,rfl⟩ := List.mem_map.mp hc
    have ha := a.isLt
    have hval : (Fin.ofNat 0x110000 a.val).val = a.val := Nat.mod_eq_of_lt (by omega)
    simp only [isSurrogate,hval,decide_eq_true_eq] at hsurrogate
    omega
  constructor
  · intro h
    exact (h _ (by rw [hlatin1]; rfl)).2
  · intro h text htext
    rw [hlatin1,strict_eq_ok,decodeLatin1] at htext
    cases htext
    exact ⟨hplain,h⟩

end Fits

/-- The code of an accepted request is an argument the kernel can be given exactly if what the
charset makes of its content can be encoded to as few bytes. -/
theorem accepted_code_fits_iff {limits : Limits} {workDirectory : Str}
    {body : List (Except (Exc AppError) Part)} {w w' : World} {fields : Fields} {part : Part}
    (accepted : stagingBlock limits workDirectory body w = (.ok (.ok fields),w'))
    (hpart : codePart body = some part) (settings : ContainerSettings) (runtime : LanguageRuntime)
    (containerName : Str) (currentNiceness : ℤ) :
    (∃ code argument, fields.code = some code ∧
      (podmanRun settings runtime workDirectory containerName currentNiceness code).getLast? =
        some argument ∧ FitsEntry limits.maxCodeLength argument) ↔
      part.Fits limits.maxCodeLength := by
  obtain ⟨part',code,hpart',hcode,⟨text,htext,hdecode,hlen⟩,hnul⟩ :=
    stagingBlock_code body w (.ok fields) (by rw [accepted]) fields rfl
  rw [hpart,Option.some.injEq] at hpart'
  cases hpart'
  cases htext
  have hfits : part.Fits limits.maxCodeLength ↔ FitsEntry limits.maxCodeLength code := by
    rw [fitsEntry_iff hnul]
    constructor
    · intro h
      exact h code hdecode
    · intro h text htext
      rw [hdecode,Except.ok.injEq] at htext
      exact htext ▸ h
  rw [hfits]
  constructor
  · intro h
    obtain ⟨code',argument,hcode',hargument,hentry⟩ := h
    rw [podmanRun_getLast,Option.some.injEq] at hargument
    rw [hcode,Option.some.injEq] at hcode'
    rw [hcode',hargument]
    exact hentry
  · intro h
    exact ⟨code,code,hcode,podmanRun_getLast _ _ _ _ _ _,h⟩

/-- The defaults of config.py. -/
def ContainerSettings.default : ContainerSettings where
  pidsLimit := 128
  ulimitNofile := 1024
  ulimitFsize := 256*1024*1024
  userId := 4000
  network := lit "bridge"
  tmpfsSize := lit "64m"
  maxMemory := lit "256M"
  maxCpuCores := 1
  imagePrefix := lit "code_executor"
  relativeNiceness := 5

/-- One byte of code is allowed. -/
def oneByte : Limits := ⟨0,1,0,0⟩

/-- The code of a request is one byte, in some charset. -/
def codeOf (decode : Bytes → Option Str) (b : Byte) : Part :=
  ⟨some (lit "code"),none,.reader [.ok [b]],strict decode⟩

def oneByteBody (decode : Bytes → Option Str) (b : Byte) : List (Except (Exc AppError) Part) :=
  [.ok ⟨some (lit "language"),none,.reader [.ok [0x62,0x61,0x73,0x68]],strict decodeUtf8⟩,
    .ok (codeOf decode b)]

theorem oneByte_accepted : ∃ fields w', stagingBlock oneByte Session.rootDirectory
    (oneByteBody decodeLatin1 0xE9) (Session.sessionFailing .close 0 none) =
      (.ok (.ok fields),w') := by
  have hok : (stagingBlock oneByte Session.rootDirectory (oneByteBody decodeLatin1 0xE9)
      (Session.sessionFailing .close 0 none)).1 =
        .ok (.ok ⟨some (lit "bash"),some [0xE9],[]⟩) := by
    decide +kernel
  exact ⟨_,_,Prod.ext hok rfl⟩

theorem accepted_code_fits_iff_latin1 : ∃ fields w',
    stagingBlock oneByte Session.rootDirectory (oneByteBody decodeLatin1 0xE9)
      (Session.sessionFailing .close 0 none) = (.ok (.ok fields),w') ∧
    ((∃ code argument, fields.code = some code ∧ (podmanRun .default ⟨lit "bash",[lit "bash",
        lit "-c"]⟩ Session.rootDirectory (lit "ce_A") 0 code).getLast? = some argument ∧
          FitsEntry oneByte.maxCodeLength argument) ↔
      (codeOf decodeLatin1 0xE9).Fits oneByte.maxCodeLength) := by
  obtain ⟨fields,w',accepted⟩ := oneByte_accepted
  exact ⟨fields,w',accepted,accepted_code_fits_iff accepted rfl .default _ (lit "ce_A") 0⟩

/-- The byte 0xE9 is one byte of Latin-1, and two of UTF-8. -/
theorem accepted_code_outgrows : ¬∀ (limits : Limits) (body : List (Except (Exc AppError) Part))
    (w w' : World) (fields : Fields),
      stagingBlock limits Session.rootDirectory body w = (.ok (.ok fields),w') →
        ∃ code argument, fields.code = some code ∧ (podmanRun .default ⟨lit "bash",[lit "bash",
          lit "-c"]⟩ Session.rootDirectory (lit "ce_A") 0 code).getLast? = some argument ∧
            FitsEntry limits.maxCodeLength argument := by
  intro hall
  obtain ⟨fields,w',accepted⟩ := oneByte_accepted
  obtain ⟨code,argument,hcode,hargument,entry,hentry,hlen,_⟩ := hall _ _ _ _ _ accepted
  obtain ⟨part,code',hpart,hcode',⟨text,htext,hdecode,_⟩,_⟩ :=
    stagingBlock_code _ _ (.ok fields) (by rw [accepted]) fields rfl
  have hlatin1 : code = [0xE9] := by
    cases hpart
    cases htext
    rw [hcode,Option.some.injEq] at hcode'
    rw [hcode']
    exact (Except.ok.inj hdecode).symm
  rw [podmanRun_getLast,Option.some.injEq] at hargument
  rw [← hargument,hlatin1] at hentry
  cases hentry
  exact absurd hlen (by decide)

end CodeExecutorApi
