import CodeExecutorApi.FileHelpers
import CodeExecutorApi.Python.Codec

/-! file_helpers.py: the header of a payload, as its reader takes it apart. -/
namespace CodeExecutorApi
open Python Posix

/-- `s.split(sep)`, for a separator that is not empty. Every step reads a character, so the length
of the string is fuel enough. -/
def splitText (sep : Str) : ℕ → Str → List Str
  | 0, s => [s]
  | _+1, [] => [[]]
  | n+1, c :: s =>
    if sep <+: c :: s then [] :: splitText sep n ((c :: s).drop sep.length)
    else (splitText sep n s).modifyHead (c :: ·)

/-- The parameters of a header. -/
def parameters (header : Str) : List Str := splitText (lit "; ") header.length header

def hexValue (c : CodePoint) : Option ℕ :=
  if 0x30 ≤ c.val ∧ c.val ≤ 0x39 then some (c-0x30)
  else if 0x41 ≤ c.val ∧ c.val ≤ 0x46 then some (c-0x37)
  else if 0x61 ≤ c.val ∧ c.val ≤ 0x66 then some (c-0x57)
  else none

/-- Percent-decoding of an ASCII string. -/
def unquoteToBytes : Str → Bytes
  | c :: a :: b :: s =>
    if c.val = 0x25 then
      match hexValue a, hexValue b with
      | some x, some y => byte (16*x+y) :: unquoteToBytes s
      | _, _ => byte c :: unquoteToBytes (a :: b :: s)
    else byte c :: unquoteToBytes (a :: b :: s)
  | c :: s => byte c :: unquoteToBytes s
  | [] => []

/-- Strict UTF-8: the escapes of undecodable bytes are refused. -/
def decodeUtf8 (b : Bytes) : Option Str :=
  if hasSurrogate (fsdecode b) then none else some (fsdecode b)

/-- The value of `filename*` as a client reads it. -/
def unquote (s : Str) : Option Str := decodeUtf8 (unquoteToBytes s)

example : unquote (lit "a%2Ff%C3%a9.t") = some [0x61,0x2F,0x66,0xE9,0x2E,0x74] := by decide

/-- One byte as `quote` writes it. -/
def quoteByte (b : Byte) : Str :=
  if isUnreserved b then [Fin.ofNat _ b.val] else [0x25,hexDigit (b/16),hexDigit (b%16)]

def isPrintable (c : CodePoint) : Bool := 0x20 ≤ c.val ∧ c.val ≤ 0x7E

def semicolon : CodePoint := 0x3B

section Percent

theorem hexValue_hexDigit {n : ℕ} (h : n < 16) : hexValue (hexDigit n) = some n := by
  have hall : ∀ d : Fin 16, hexValue (hexDigit d) = some d.val := by decide
  exact hall ⟨n,h⟩

theorem unquoteToBytes_cons {c : CodePoint} {s : Str} (h : c.val ≠ 0x25) :
    unquoteToBytes (c :: s) = byte c :: unquoteToBytes s := by
  match s with
  | [] => rfl
  | [_] => rfl
  | a :: b :: s =>
    rw [unquoteToBytes,if_neg h]

theorem unquoteToBytes_quoteByte (b : Byte) (s : Str) :
    unquoteToBytes (quoteByte b ++ s) = b :: unquoteToBytes s := by
  have hb := b.isLt
  unfold quoteByte
  split_ifs with hu
  · have hval : (Fin.ofNat 0x110000 b.val).val = b.val := Nat.mod_eq_of_lt (by omega)
    have hpercent : isUnreserved 0x25 = false := by decide
    rw [List.singleton_append,unquoteToBytes_cons,hval]
    · rw [byte_eq rfl]
    · rw [hval]
      intro heq
      have : b = 0x25 := Fin.ext heq
      rw [this,hpercent] at hu
      cases hu
  · have h16 : b.val/16 < 16 := by omega
    have hlow : b.val%16 < 16 := Nat.mod_lt _ (by omega)
    change unquoteToBytes (0x25 :: hexDigit (b/16) :: hexDigit (b%16) :: s) = _
    have hpercent : (0x25 : CodePoint).val = 0x25 := rfl
    rw [unquoteToBytes,if_pos hpercent,hexValue_hexDigit h16,hexValue_hexDigit hlow]
    dsimp only
    rw [byte_eq (a := b) (by omega)]

theorem quote_eq {s : Str} {bytes : Bytes} (hs : hasSurrogate s = false)
    (h : fsencode s = some bytes) : quote s = some (bytes.flatMap quoteByte) := by
  rw [quote,hs,h]
  rfl

/-- `quote` fails on a surrogate only. -/
theorem quote_eq_none {s : Str} : quote s = none ↔ hasSurrogate s = true := by
  constructor
  · intro h
    by_contra hs
    simp only [Bool.not_eq_true] at hs
    obtain ⟨bytes,hb⟩ := exists_fsencode hs
    rw [quote_eq hs hb] at h
    cases h
  · intro h
    rw [quote,if_pos h]

theorem unquoteToBytes_quote (bytes : Bytes) :
    unquoteToBytes (bytes.flatMap quoteByte) = bytes := by
  induction bytes with
  | nil => rfl
  | cons b bytes ih => rw [List.flatMap_cons,unquoteToBytes_quoteByte,ih]

/-- Strict UTF-8 takes back what it has encoded. -/
theorem decodeUtf8_fsencode {s : Str} {b : Bytes} (hs : hasSurrogate s = false)
    (h : fsencode s = some b) : decodeUtf8 b = some s := by
  have hback : fsdecode b = s := fsdecode_fsencode hs h
  rw [decodeUtf8,hback,if_neg (by simp [hs])]

theorem unquote_quote {s value : Str} (h : quote s = some value) : unquote value = some s := by
  have hs : hasSurrogate s = false := by
    rw [← Bool.not_eq_true,← quote_eq_none,h]
    simp
  obtain ⟨bytes,hb⟩ := exists_fsencode hs
  rw [quote_eq hs hb] at h
  cases h
  rw [unquote,unquoteToBytes_quote,decodeUtf8_fsencode hs hb]

end Percent

section Parameters
variable {sep : Str} {d : CodePoint}

theorem splitText_word {w : Str} (n : ℕ) (hw : d ∉ w) : splitText (d :: sep) n w = [w] := by
  induction w generalizing n with
  | nil => cases n <;> rfl
  | cons c w ih =>
    cases n with
    | zero => rfl
    | succ n =>
      rw [List.mem_cons,not_or] at hw
      obtain ⟨hc,hw⟩ := hw
      have hno : ¬d :: sep <+: c :: w := fun h => hc (List.cons_prefix_cons.mp h).1
      rw [splitText,if_neg hno,ih n hw]
      rfl

theorem splitText_append {w rest : Str} (n : ℕ) (hw : d ∉ w)
    (hn : (w ++ (d :: sep ++ rest)).length ≤ n) :
    ∃ m, rest.length ≤ m ∧
      splitText (d :: sep) n (w ++ (d :: sep ++ rest)) = w :: splitText (d :: sep) m rest := by
  induction w generalizing n with
  | nil =>
    simp only [List.nil_append,List.cons_append,List.length_cons,List.length_append] at hn ⊢
    obtain ⟨n,rfl⟩ := Nat.exists_eq_add_of_le' (show 1 ≤ n by omega)
    have hyes : d :: sep <+: d :: (sep ++ rest) := List.prefix_append (d :: sep) rest
    have hdrop : (d :: (sep ++ rest)).drop (d :: sep).length = rest := by
      rw [← List.cons_append,List.drop_left]
    refine ⟨n,by omega,?_⟩
    rw [splitText,if_pos hyes,hdrop]
  | cons c w ih =>
    rw [List.cons_append,List.length_cons] at hn
    rw [List.mem_cons,not_or] at hw
    obtain ⟨hc,hw⟩ := hw
    obtain ⟨n,rfl⟩ := Nat.exists_eq_add_of_le' (show 1 ≤ n by omega)
    obtain ⟨m,hm,heq⟩ := ih n hw (by omega)
    have hno : ¬d :: sep <+: c :: (w ++ (d :: sep ++ rest)) := fun h =>
      hc (List.cons_prefix_cons.mp h).1
    refine ⟨m,hm,?_⟩
    rw [List.cons_append,splitText,if_neg hno,heq]
    rfl

/-- Splitting takes a joined list apart, if the first character of the separator is in no part. -/
theorem splitText_intercalate {parts : List Str} (hne : parts ≠ []) (hd : ∀ w ∈ parts, d ∉ w)
    (n : ℕ) (hn : ((d :: sep).intercalate parts).length ≤ n) :
    splitText (d :: sep) n ((d :: sep).intercalate parts) = parts := by
  induction parts generalizing n with
  | nil => exact absurd rfl hne
  | cons w parts ih =>
    have hw := hd w List.mem_cons_self
    cases parts with
    | nil =>
      rw [List.intercalate_singleton]
      exact splitText_word n hw
    | cons v parts =>
      rw [List.intercalate_cons_cons] at hn ⊢
      rw [List.append_assoc] at hn ⊢
      obtain ⟨m,hm,heq⟩ := splitText_append n hw hn
      rw [heq,ih (List.cons_ne_nil v parts) (fun x hx => hd x (List.mem_cons_of_mem _ hx)) m hm]

theorem mem_intercalate {parts : List Str} {c : CodePoint} (h : c ∈ sep.intercalate parts) :
    c ∈ sep ∨ ∃ w ∈ parts, c ∈ w := by
  induction parts with
  | nil => simp [List.intercalate] at h
  | cons w parts ih =>
    cases parts with
    | nil =>
      rw [List.intercalate_singleton] at h
      exact .inr ⟨w,List.mem_cons_self,h⟩
    | cons v parts =>
      rw [List.intercalate_cons_cons] at h
      simp only [List.mem_append] at h
      rcases h with (h | h) | h
      · exact .inr ⟨w,List.mem_cons_self,h⟩
      · exact .inl h
      · rcases ih h with h | ⟨x,hx,hc⟩
        · exact .inl h
        · exact .inr ⟨x,List.mem_cons_of_mem _ hx,hc⟩

end Parameters

section Header

def filenameParameter (fallback : Str) : Str := lit "filename=\"" ++ fallback ++ lit "\""

def extendedParameter (value : Str) : Str := lit "filename*=UTF-8''" ++ value

def nameParameters : Option Str → List Str
  | some f => [lit "name=\"" ++ f ++ lit "\""]
  | none => []

/-- What a parameter is written with: it neither ends the parameter nor leaves printable ASCII. -/
def isTokenChar (c : CodePoint) : Bool := isPrintable c ∧ c ≠ semicolon

theorem isTokenChar_of_isFilenameChar {c : CodePoint} (h : isFilenameChar c = true) :
    isTokenChar c = true := by
  simp only [isFilenameChar,isAlnum,decide_eq_true_eq,Bool.decide_or,Bool.or_eq_true,
    Bool.decide_and,Bool.and_eq_true] at h
  have hval : semicolon.val = 0x3B := rfl
  simp only [isTokenChar,isPrintable,decide_eq_true_eq,ne_eq,Fin.ext_iff,hval]
  omega

theorem isFilenameChar_hexDigit {n : ℕ} (h : n < 16) : isFilenameChar (hexDigit n) = true := by
  have hall : ∀ d : Fin 16, isFilenameChar (hexDigit d) = true := by decide
  exact hall ⟨n,h⟩

theorem isTokenChar_of_mem_quoteByte {b : Byte} {c : CodePoint} (h : c ∈ quoteByte b) :
    isTokenChar c = true := by
  have hb := b.isLt
  unfold quoteByte at h
  split_ifs at h with hu
  · rw [List.mem_singleton] at h
    subst h
    simp only [isUnreserved,Bool.decide_or,Bool.or_eq_true,Bool.decide_eq_true,
      decide_eq_true_eq] at hu
    rcases hu with hu | hu
    · exact isTokenChar_of_isFilenameChar hu
    · rw [hu]
      decide
  · simp only [List.mem_cons,List.not_mem_nil,or_false] at h
    rcases h with rfl | rfl | rfl
    · decide
    · exact isTokenChar_of_isFilenameChar (isFilenameChar_hexDigit (by omega))
    · exact isTokenChar_of_isFilenameChar (isFilenameChar_hexDigit (by omega))

variable {s : Str} {fieldName : Option Str}

def flat (s : Str) : Str := s.map fun c => if isFilenameChar c then c else 0x5F

/-- The quoted file name: `sub_path` flattened, if there is something to flatten. -/
def fallback (s : Str) : Str := if flat s = [] then lit "attachment" else flat s

theorem isFilenameChar_of_mem_fallback {c : CodePoint} (h : c ∈ fallback s) :
    isFilenameChar c = true := by
  have hattachment : (lit "attachment").all isFilenameChar = true := by decide
  unfold fallback at h
  split_ifs at h with hflat
  · exact List.all_eq_true.mp hattachment c h
  · obtain ⟨a,-,rfl⟩ := List.mem_map.mp h
    split_ifs with ha
    · exact ha
    · decide

theorem contentDisposition_eq (s : Str) (fieldName : Option Str) :
    contentDisposition s fieldName = (quote s).map fun value =>
      (lit "; ").intercalate ([lit "attachment"] ++ nameParameters fieldName ++
        [filenameParameter (fallback s),extendedParameter value]) := by
  unfold contentDisposition
  cases quote s with
  | none => rfl
  | some value => cases fieldName <;> rfl

theorem isTokenChar_of_mem_quote {value : Str} {c : CodePoint} (h : quote s = some value)
    (hc : c ∈ value) : isTokenChar c = true := by
  have hs : hasSurrogate s = false := by
    rw [← Bool.not_eq_true,← quote_eq_none,h]
    simp
  obtain ⟨bytes,hb⟩ := exists_fsencode hs
  rw [quote_eq hs hb] at h
  cases h
  obtain ⟨b,-,hb⟩ := List.mem_flatMap.mp hc
  exact isTokenChar_of_mem_quoteByte hb

theorem isTokenChar_of_mem_parameters {value w : Str} {c : CodePoint}
    (hf : ∀ f ∈ fieldName, ∀ c ∈ f, isFilenameChar c = true) (h : quote s = some value)
    (hw : w ∈ [lit "attachment"] ++ nameParameters fieldName ++
      [filenameParameter (fallback s),extendedParameter value]) (hc : c ∈ w) :
    isTokenChar c = true := by
  have hattachment : (lit "attachment").all isTokenChar = true := by decide
  have hname : (lit "name=\"").all isTokenChar = true := by decide
  have hquote : (lit "\"").all isTokenChar = true := by decide
  have hfilename : (lit "filename=\"").all isTokenChar = true := by decide
  have hextended : (lit "filename*=UTF-8''").all isTokenChar = true := by decide
  simp only [List.mem_append,List.mem_cons,List.not_mem_nil,or_false] at hw
  rcases hw with (rfl | hw) | rfl | rfl
  · exact List.all_eq_true.mp hattachment c hc
  · cases fieldName with
    | none => cases hw
    | some f =>
      rw [nameParameters,List.mem_singleton] at hw
      subst hw
      simp only [List.mem_append] at hc
      rcases hc with (hc | hc) | hc
      · exact List.all_eq_true.mp hname c hc
      · exact isTokenChar_of_isFilenameChar (hf f rfl c hc)
      · exact List.all_eq_true.mp hquote c hc
  · simp only [filenameParameter,List.mem_append] at hc
    rcases hc with (hc | hc) | hc
    · exact List.all_eq_true.mp hfilename c hc
    · exact isTokenChar_of_isFilenameChar (isFilenameChar_of_mem_fallback hc)
    · exact List.all_eq_true.mp hquote c hc
  · rw [extendedParameter,List.mem_append] at hc
    rcases hc with hc | hc
    · exact List.all_eq_true.mp hextended c hc
    · exact isTokenChar_of_mem_quote h hc

/-- The header carries every `sub_path` that can be encoded, in the shape it is meant to have. -/
theorem contentDisposition_exact (s : Str) (fieldName : Option Str)
    (hf : ∀ f ∈ fieldName, ∀ c ∈ f, isFilenameChar c = true) :
    (contentDisposition s fieldName = none ↔ hasSurrogate s = true) ∧
    ∀ header, contentDisposition s fieldName = some header →
      (∀ c ∈ header, isPrintable c = true) ∧
      (∃ fallback value, fallback ≠ [] ∧ (∀ c ∈ fallback, isFilenameChar c = true) ∧
        parameters header = [lit "attachment"] ++ nameParameters fieldName ++
          [filenameParameter fallback,extendedParameter value] ∧
        unquote value = some s) ∧
      ∀ t, contentDisposition t fieldName = some header → t = s := by
  have hparts {t header : Str} (h : contentDisposition t fieldName = some header) :
      ∃ value, quote t = some value ∧ parameters header = [lit "attachment"] ++
        nameParameters fieldName ++ [filenameParameter (fallback t),extendedParameter value] ∧
        ∀ c ∈ header, isPrintable c = true := by
    rw [contentDisposition_eq,Option.map_eq_some_iff] at h
    obtain ⟨value,hq,rfl⟩ := h
    have htoken {w : Str} {c : CodePoint} := isTokenChar_of_mem_parameters (w := w) (c := c) hf hq
    refine ⟨value,hq,?_,fun c hc => ?_⟩
    · refine splitText_intercalate (by simp) (fun w hw hd => ?_) _ le_rfl
      have hno : isTokenChar (lit "; ").head! = false := by decide
      have := htoken hw hd
      cases this.symm.trans hno
    · have hsep : (lit "; ").all isPrintable = true := by decide
      rcases mem_intercalate hc with hc | ⟨w,hw,hc⟩
      · exact List.all_eq_true.mp hsep c hc
      · have := htoken hw hc
        simp only [isTokenChar,Bool.decide_and,Bool.and_eq_true,decide_eq_true_eq] at this
        exact this.1
  refine ⟨?_,fun header h => ?_⟩
  · rw [contentDisposition_eq,Option.map_eq_none_iff,quote_eq_none]
  · obtain ⟨value,hq,hsplit,hprint⟩ := hparts h
    refine ⟨hprint,⟨fallback s,value,?_,fun c hc => isFilenameChar_of_mem_fallback hc,hsplit,
      unquote_quote hq⟩,fun t ht => ?_⟩
    · unfold fallback
      split_ifs with hflat
      · decide
      · exact hflat
    · obtain ⟨value',hq',hsplit',-⟩ := hparts ht
      -- the last parameter alone determines the path
      have hlast := congrArg List.getLast? (hsplit.symm.trans hsplit')
      simp only [List.getLast?_append,List.getLast?_cons_cons,List.getLast?_singleton,
        Option.some_or,Option.some.injEq,extendedParameter,List.append_cancel_left_eq] at hlast
      subst hlast
      have := (unquote_quote hq').symm.trans (unquote_quote hq)
      exact Option.some.inj this

theorem contentDisposition_exact_attachments :
    contentDisposition (lit "a \"b\".txt") (some (lit "attachments")) = none ↔
      hasSurrogate (lit "a \"b\".txt") = true := by
  have hall : (lit "attachments").all isFilenameChar = true := by decide
  refine (contentDisposition_exact _ _ fun f hf c hc => ?_).1
  rw [Option.mem_some_iff] at hf
  subst hf
  exact List.all_eq_true.mp hall c hc

end Header

end CodeExecutorApi
