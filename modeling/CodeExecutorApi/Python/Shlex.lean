import Mathlib.Data.List.Induction
import CodeExecutorApi.Python.Str

/-! `shlex.split`, as the state machine of the library and as the language it reads, and
`shlex.join`. -/
namespace Python

def backslash : CodePoint := 0x5C

def singleQuote : CodePoint := 0x27

def doubleQuote : CodePoint := 0x22

/-- `shlex.whitespace` -/
def isBlank (c : CodePoint) : Bool := c.val ∈ [0x20,0x9,0xD,0xA]

/-- `shlex.quotes` -/
def isQuote (c : CodePoint) : Bool := c = singleQuote ∨ c = doubleQuote

/-- The `ValueError` of a command line that ends too early. -/
inductive ShlexError
  | noClosingQuotation
  | noEscapedCharacter
  deriving DecidableEq, Repr

def ShlexError.message : ShlexError → Str
  | .noClosingQuotation => lit "No closing quotation"
  | .noEscapedCharacter => lit "No escaped character"

/-- `self.state`. An escape goes back to the quotes it stands in, or to the word. -/
inductive ShlexState
  | blank
  | word
  | quote (q : CodePoint)
  | escape (escapedState : Option CodePoint)
  deriving DecidableEq, Repr

/-- The lexer with the tokens it has returned so far. -/
structure Shlex where
  state : ShlexState
  token : Str
  quoted : Bool
  tokens : List Str
  deriving DecidableEq, Repr

namespace Shlex

def init : Shlex := ⟨.blank,[],false,[]⟩

/-- The end of `read_token`: a token that is empty counts if it was quoted. -/
def emit (l : Shlex) : Shlex :=
  if l.token ≠ [] ∨ l.quoted then ⟨.blank,[],false,l.tokens ++ [l.token]⟩
  else { l with state := .blank }

/-- One turn of the loop of `read_token`, with `posix` and `whitespace_split`. -/
def step (l : Shlex) (c : CodePoint) : Shlex :=
  match l.state with
  | .blank =>
    if isBlank c then l.emit
    else if c = backslash then { l with state := .escape none }
    else if isQuote c then { l with state := .quote c }
    else { l with token := [c], state := .word }
  | .quote q =>
    if c = q then { l with quoted := true, state := .word }
    else if c = backslash ∧ q = doubleQuote then
      { l with quoted := true, state := .escape (some q) }
    else { l with quoted := true, token := l.token ++ [c] }
  | .escape none => { l with token := l.token ++ [c], state := .word }
  | .escape (some q) =>
    -- in quotes only the quote itself and the backslash are escaped
    if c ≠ backslash ∧ c ≠ q then { l with token := l.token ++ [backslash,c], state := .quote q }
    else { l with token := l.token ++ [c], state := .quote q }
  | .word =>
    if isBlank c then l.emit
    else if isQuote c then { l with state := .quote c }
    else if c = backslash then { l with state := .escape none }
    else { l with token := l.token ++ [c] }

def finish (l : Shlex) : Except ShlexError (List Str) :=
  match l.state with
  | .quote _ => .error .noClosingQuotation
  | .escape _ => .error .noEscapedCharacter
  | .blank | .word => .ok l.emit.tokens

end Shlex

/-- `shlex.split(s)` -/
def shlexSplit (s : Str) : Except ShlexError (List Str) := (s.foldl Shlex.step .init).finish

/-- What stands between double quotes, and what it means. -/
inductive DoubleQuoted : Str → Str → Prop
  | nil : DoubleQuoted [] []
  | char {s v c} (body : DoubleQuoted s v) (hq : c ≠ doubleQuote) (hb : c ≠ backslash) :
      DoubleQuoted (s ++ [c]) (v ++ [c])
  | escaped {s v c} (body : DoubleQuoted s v) (hc : c = backslash ∨ c = doubleQuote) :
      DoubleQuoted (s ++ [backslash,c]) (v ++ [c])
  | literal {s v c} (body : DoubleQuoted s v) (hb : c ≠ backslash) (hq : c ≠ doubleQuote) :
      DoubleQuoted (s ++ [backslash,c]) (v ++ [backslash,c])

/-- A part of a word, and what it means. -/
inductive Piece : Str → Str → Prop
  | char {c} (hblank : isBlank c = false) (hq : isQuote c = false) (hb : c ≠ backslash) :
      Piece [c] [c]
  | escaped (c) : Piece [backslash,c] [c]
  | single {s} (hs : singleQuote ∉ s) : Piece (singleQuote :: (s ++ [singleQuote])) s
  | double {s v} (body : DoubleQuoted s v) : Piece (doubleQuote :: (s ++ [doubleQuote])) v

/-- Parts of one word in a row. -/
inductive Pieces : Str → Str → Prop
  | nil : Pieces [] []
  | snoc {s v t u} (pieces : Pieces s v) (piece : Piece t u) : Pieces (s ++ t) (v ++ u)

/-- A word has a part at least. -/
inductive Word : Str → Str → Prop
  | mk {s v t u} (pieces : Pieces s v) (piece : Piece t u) : Word (s ++ t) (v ++ u)

/-- Words, each with a blank after it and any number of further ones. -/
inductive Words : List Str → Str → Prop
  | nil : Words [] []
  | blank {ws s c} (words : Words ws s) (hc : isBlank c = true) : Words ws (s ++ [c])
  | word {ws s t v c} (words : Words ws s) (word : Word t v) (hc : isBlank c = true) :
      Words (ws ++ [v]) (s ++ t ++ [c])

/-- The words of a command line. The last one need not have a blank after it. -/
inductive Renders : List Str → Str → Prop
  | blank {ws s} (words : Words ws s) : Renders ws s
  | word {ws s t v} (words : Words ws s) (word : Word t v) : Renders (ws ++ [v]) (s ++ t)

namespace Shlex

/-- What the lexer has read, by the state it is in. -/
inductive Read : Str → Shlex → Prop
  | blank {ws s} (words : Words ws s) : Read s ⟨.blank,[],false,ws⟩
  | word {ws s t v f} (words : Words ws s) (word : Word t v) (some : v ≠ [] ∨ f = true) :
      Read (s ++ t) ⟨.word,v,f,ws⟩
  | single {ws s t v u f} (words : Words ws s) (pieces : Pieces t v) (hu : singleQuote ∉ u) :
      Read (s ++ t ++ singleQuote :: u) ⟨.quote singleQuote,v ++ u,f,ws⟩
  | double {ws s t v u b f} (words : Words ws s) (pieces : Pieces t v)
      (body : DoubleQuoted u b) :
      Read (s ++ t ++ doubleQuote :: u) ⟨.quote doubleQuote,v ++ b,f,ws⟩
  | escape {ws s t v f} (words : Words ws s) (pieces : Pieces t v) :
      Read (s ++ t ++ [backslash]) ⟨.escape none,v,f,ws⟩
  | escapeDouble {ws s t v u b f} (words : Words ws s) (pieces : Pieces t v)
      (body : DoubleQuoted u b) : Read (s ++ t ++ doubleQuote :: (u ++ [backslash]))
        ⟨.escape (Option.some doubleQuote),v ++ b,f,ws⟩

theorem emit_of_some {state : ShlexState} {v : Str} {quoted : Bool} {ws : List Str}
    (h : v ≠ [] ∨ quoted = true) : emit ⟨state,v,quoted,ws⟩ = ⟨.blank,[],false,ws ++ [v]⟩ := by
  rw [emit,if_pos h]

theorem emit_blank (ws : List Str) : emit ⟨.blank,[],false,ws⟩ = ⟨.blank,[],false,ws⟩ := by
  simp [emit]

end Shlex

theorem Word.pieces {t v : Str} (h : Word t v) : Pieces t v := by
  cases h with
  | mk pieces piece => exact .snoc pieces piece

theorem isQuote_iff {c : CodePoint} : isQuote c = true ↔ c = singleQuote ∨ c = doubleQuote := by
  simp [isQuote]

namespace Shlex

/-- What the lexer has read grows with each character. -/
theorem Read.next {s : Str} {l : Shlex} (h : Read s l) (c : CodePoint) : Read (s ++ [c]) (l.step c) := by
  cases h with
  | @blank ws s words =>
    simp only [step]
    split_ifs with hblank hb hq
    · rw [emit_blank]
      exact .blank (.blank words hblank)
    · subst hb
      simpa using Read.escape (f := false) words .nil
    · rcases isQuote_iff.mp hq with rfl | rfl
      · simpa using Read.single (u := []) (f := false) words .nil (by simp)
      · simpa using Read.double (f := false) words .nil .nil
    · have hchar : Piece [c] [c] := .char (by simpa using hblank) (by simpa using hq) hb
      exact .word words (.mk .nil hchar) (.inl (by simp))
  | @word ws s t v f words word some =>
    simp only [step]
    split_ifs with hblank hq hb
    · rw [emit_of_some some]
      exact .blank (.word words word hblank)
    · rcases isQuote_iff.mp hq with rfl | rfl
      · simpa using Read.single (u := []) (f := f) words word.pieces (by simp)
      · simpa using Read.double (f := f) words word.pieces .nil
    · subst hb
      exact .escape words word.pieces
    · have hchar : Piece [c] [c] := .char (by simpa using hblank) (by simpa using hq) hb
      rw [List.append_assoc]
      exact .word words (.mk word.pieces hchar) (.inl (by simp))
  | @single ws s t v u f words pieces hu =>
    have hdouble : singleQuote ≠ doubleQuote := by decide
    simp only [step,hdouble,and_false,if_false]
    split_ifs with hc
    · subst hc
      have hword : Word (t ++ singleQuote :: (u ++ [singleQuote])) (v ++ u) := .mk pieces (.single hu)
      have hread : Read (s ++ (t ++ singleQuote :: (u ++ [singleQuote]))) ⟨.word,v ++ u,true,ws⟩ :=
        .word words hword (.inr rfl)
      simpa using hread
    · have hu' : singleQuote ∉ u ++ [c] := by
        rw [List.mem_append,List.mem_singleton]
        rintro (h | h)
        · exact hu h
        · exact hc h.symm
      have hread := Read.single (f := true) words pieces hu'
      simpa using hread
  | @double ws s t v u b f words pieces body =>
    simp only [step]
    split_ifs with hc hb
    · subst hc
      have hword : Word (t ++ doubleQuote :: (u ++ [doubleQuote])) (v ++ b) := .mk pieces (.double body)
      have hread : Read (s ++ (t ++ doubleQuote :: (u ++ [doubleQuote]))) ⟨.word,v ++ b,true,ws⟩ :=
        .word words hword (.inr rfl)
      simpa using hread
    · obtain ⟨rfl,-⟩ := hb
      have hread := Read.escapeDouble (f := true) words pieces body
      simpa using hread
    · have hread := Read.double (f := true) words pieces (.char body hc (by simpa using hb))
      simpa using hread
  | @escape ws s t v f words pieces =>
    have hread : Read (s ++ (t ++ [backslash,c])) ⟨.word,v ++ [c],f,ws⟩ :=
      .word words (.mk pieces (.escaped c)) (.inl (by simp))
    simpa [step] using hread
  | @escapeDouble ws s t v u b f words pieces body =>
    simp only [step]
    split_ifs with hc
    · have hread := Read.double (f := f) words pieces (.literal body hc.1 hc.2)
      simpa using hread
    · have hc' : c = backslash ∨ c = doubleQuote := by
        by_contra h
        exact hc (not_or.mp h)
      have hread := Read.double (f := f) words pieces (.escaped body hc')
      simpa using hread

theorem read_init : Read [] init := .blank .nil

theorem read_foldl (s : Str) : Read s (s.foldl step init) := by
  induction s using List.reverseRecOn with
  | nil => exact read_init
  | append_singleton s c ih =>
    rw [List.foldl_append]
    exact ih.next c

/-- What is returned is what the line renders. -/
theorem Read.renders {s : Str} {l : Shlex} {ws : List Str} (h : Read s l) (hf : l.finish = .ok ws) :
    Renders ws s := by
  cases h with
  | blank words =>
    rw [finish,emit_blank] at hf
    cases hf
    exact .blank words
  | word words word some =>
    rw [finish,emit_of_some some] at hf
    cases hf
    exact .word words word
  | single | double | escape | escapeDouble => cases hf

theorem single_foldl {s : Str} (hs : singleQuote ∉ s) (v : Str) (f : Bool) (ws : List Str) :
    ∃ f', s.foldl step ⟨.quote singleQuote,v,f,ws⟩ = ⟨.quote singleQuote,v ++ s,f',ws⟩ := by
  induction s generalizing v f with
  | nil => exact ⟨f,by simp⟩
  | cons c s ih =>
    have hc : c ≠ singleQuote := fun h => hs (by simp [h])
    have hdouble : singleQuote ≠ doubleQuote := by decide
    obtain ⟨f',h⟩ := ih (fun h => hs (List.mem_cons_of_mem _ h)) (v ++ [c]) true
    refine ⟨f',?_⟩
    rw [List.foldl_cons]
    simp only [step,hc,hdouble,and_false,if_false]
    rw [h,List.append_assoc,List.singleton_append]

theorem double_foldl {s b : Str} (h : DoubleQuoted s b) (v : Str) (f : Bool) (ws : List Str) :
    ∃ f', s.foldl step ⟨.quote doubleQuote,v,f,ws⟩ = ⟨.quote doubleQuote,v ++ b,f',ws⟩ := by
  have hbackslash : backslash ≠ doubleQuote := by decide
  induction h with
  | nil => exact ⟨f,by simp⟩
  | char _ hq hb ih =>
    obtain ⟨f',ih⟩ := ih
    refine ⟨true,?_⟩
    rw [List.foldl_append,ih]
    simp [step,hq,hb]
  | @escaped s b c _ hc ih =>
    obtain ⟨f',ih⟩ := ih
    have hc' : ¬(c ≠ backslash ∧ c ≠ doubleQuote) := fun h => hc.elim h.1 h.2
    refine ⟨true,?_⟩
    rw [List.foldl_append,ih,List.foldl_cons,List.foldl_cons,List.foldl_nil]
    simp only [step,hbackslash,true_and,if_false,if_true,if_neg hc']
    simp
  | @literal s b c _ hb hq ih =>
    obtain ⟨f',ih⟩ := ih
    refine ⟨true,?_⟩
    rw [List.foldl_append,ih,List.foldl_cons,List.foldl_cons,List.foldl_nil]
    simp only [step,hbackslash,true_and,if_false,if_true,if_pos (And.intro hb hq)]
    simp

theorem piece_foldl {t u : Str} (h : Piece t u) (v : Str) (f : Bool) (ws : List Str) :
    ∃ f', t.foldl step ⟨.word,v,f,ws⟩ = ⟨.word,v ++ u,f',ws⟩ ∧ (f = true → f' = true) ∧
      (u ≠ [] ∨ f' = true) := by
  cases h with
  | char hblank hq hb => exact ⟨f,by simp [step,hblank,hq,hb],id,.inl (by simp)⟩
  | escaped c =>
    have hblank : isBlank backslash = false := by decide
    have hq : isQuote backslash = false := by decide
    exact ⟨f,by simp [step,hblank,hq],id,.inl (by simp)⟩
  | single hs =>
    obtain ⟨f',h⟩ := single_foldl hs v f ws
    have hopen : step ⟨.word,v,f,ws⟩ singleQuote = ⟨.quote singleQuote,v,f,ws⟩ := rfl
    refine ⟨true,?_,fun _ => rfl,.inr rfl⟩
    rw [List.foldl_cons,hopen,List.foldl_append,h]
    simp [step]
  | double body =>
    obtain ⟨f',h⟩ := double_foldl body v f ws
    have hopen : step ⟨.word,v,f,ws⟩ doubleQuote = ⟨.quote doubleQuote,v,f,ws⟩ := rfl
    refine ⟨true,?_,fun _ => rfl,.inr rfl⟩
    rw [List.foldl_cons,hopen,List.foldl_append,h]
    simp [step]

theorem pieces_foldl {t u : Str} (h : Pieces t u) (f : Bool) (ws : List Str) :
    ∃ f', t.foldl step ⟨.word,[],f,ws⟩ = ⟨.word,u,f',ws⟩ := by
  induction h with
  | nil => exact ⟨f,rfl⟩
  | snoc _ piece ih =>
    obtain ⟨f',ih⟩ := ih
    obtain ⟨f'',h,-⟩ := piece_foldl piece _ f' ws
    exact ⟨f'',by rw [List.foldl_append,ih,h]⟩

theorem piece_head {t u : Str} (h : Piece t u) : ∃ c s, t = c :: s ∧ isBlank c = false := by
  cases h with
  | char hblank => exact ⟨_,_,rfl,hblank⟩
  | escaped c => exact ⟨_,_,rfl,by decide⟩
  | single | double => exact ⟨_,_,rfl,by decide⟩

theorem pieces_head {t u : Str} (h : Pieces t u) : t = [] ∨ ∃ c s, t = c :: s ∧ isBlank c = false := by
  induction h with
  | nil => exact .inl rfl
  | snoc _ piece ih =>
    right
    rcases ih with rfl | ⟨c,s,rfl,hc⟩
    · exact piece_head piece
    · exact ⟨c,_,rfl,hc⟩

theorem word_ne_nil {t u : Str} (h : Word t u) : t ≠ [] := by
  cases h with
  | mk _ piece =>
    obtain ⟨c,s,rfl,-⟩ := piece_head piece
    simp

/-- A word begins with a character that is no blank, and a lexer that waits for one takes it in. -/
theorem word_foldl {t u : Str} (h : Word t u) (ws : List Str) :
    ∃ f, t.foldl step ⟨.blank,[],false,ws⟩ = ⟨.word,u,f,ws⟩ ∧ (u ≠ [] ∨ f = true) := by
  have hstart : t.foldl step ⟨.blank,[],false,ws⟩ = t.foldl step ⟨.word,[],false,ws⟩ := by
    rcases pieces_head h.pieces with rfl | ⟨c,s,rfl,hc⟩
    · exact absurd rfl (word_ne_nil h)
    · rw [List.foldl_cons,List.foldl_cons]
      have hstep : step ⟨.blank,[],false,ws⟩ c = step ⟨.word,[],false,ws⟩ c := by
        simp only [step,hc]
        by_cases hb : c = backslash
        · subst hb
          rfl
        · simp [hb]
      rw [hstep]
  rw [hstart]
  cases h with
  | mk pieces piece =>
    obtain ⟨f,h⟩ := pieces_foldl pieces false ws
    obtain ⟨f',h',-,hsome⟩ := piece_foldl piece _ f ws
    refine ⟨f',by rw [List.foldl_append,h,h'],hsome.imp_left fun hne hnil => ?_⟩
    exact hne (List.append_eq_nil_iff.mp hnil).2

theorem words_foldl {ws : List Str} {s : Str} (h : Words ws s) :
    s.foldl step init = ⟨.blank,[],false,ws⟩ := by
  induction h with
  | nil => rfl
  | blank _ hc ih =>
    rw [List.foldl_append,ih,List.foldl_cons,List.foldl_nil,step]
    simp only [hc,if_true]
    exact emit_blank _
  | word _ word hc ih =>
    obtain ⟨f,h,hsome⟩ := word_foldl word _
    rw [List.foldl_append,List.foldl_append,ih,h,List.foldl_cons,List.foldl_nil,step]
    simp only [hc,if_true]
    exact emit_of_some hsome

end Shlex

/-- `shlex.split` reads exactly this language. -/
theorem shlexSplit_eq_iff {s : Str} {ws : List Str} : shlexSplit s = .ok ws ↔ Renders ws s := by
  constructor
  · exact (Shlex.read_foldl s).renders
  · intro h
    unfold shlexSplit
    cases h with
    | blank words =>
      rw [Shlex.words_foldl words,Shlex.finish,Shlex.emit_blank]
    | word words word =>
      obtain ⟨f,h,hsome⟩ := Shlex.word_foldl word _
      rw [List.foldl_append,Shlex.words_foldl words,h,Shlex.finish,Shlex.emit_of_some hsome]

/-- `_find_unsafe` finds what is not one of these. -/
def isSafe (c : CodePoint) : Bool :=
  (0x30 ≤ c.val ∧ c.val ≤ 0x39) ∨ (0x41 ≤ c.val ∧ c.val ≤ 0x5A) ∨ (0x61 ≤ c.val ∧ c.val ≤ 0x7A) ∨
    c.val ∈ [0x5F,0x40,0x25,0x2B,0x3D,0x3A,0x2C,0x2E,0x2F,0x2D]

/-- `s.replace("'", "'\"'\"'")` -/
def escapeSingle (s : Str) : Str :=
  s.flatMap fun c =>
    if c = singleQuote then [singleQuote,doubleQuote,singleQuote,doubleQuote,singleQuote] else [c]

/-- `shlex.quote` -/
def shlexQuote (s : Str) : Str :=
  if s = [] then [singleQuote,singleQuote]
  else if s.all isSafe then s
  else singleQuote :: (escapeSingle s ++ [singleQuote])

/-- `shlex.join` -/
def shlexJoin (args : List Str) : Str := [0x20].intercalate (args.map shlexQuote)

theorem safe_piece {c : CodePoint} (h : isSafe c = true) : Piece [c] [c] := by
  have hval : c.val ≠ 0x20 ∧ c.val ≠ 0x9 ∧ c.val ≠ 0xD ∧ c.val ≠ 0xA ∧ c.val ≠ 0x27 ∧
      c.val ≠ 0x22 ∧ c.val ≠ 0x5C := by
    simp only [isSafe,decide_eq_true_eq,List.mem_cons,List.not_mem_nil,or_false] at h
    omega
  obtain ⟨h20,h9,hD,hA,h27,h22,h5C⟩ := hval
  refine .char ?_ ?_ fun hc => h5C (congrArg Fin.val hc)
  · simp [isBlank,h20,h9,hD,hA]
  · have hs : c ≠ singleQuote := fun hc => h27 (congrArg Fin.val hc)
    have hd : c ≠ doubleQuote := fun hc => h22 (congrArg Fin.val hc)
    simp [isQuote,hs,hd]

theorem safe_pieces {s : Str} (h : ∀ c ∈ s, isSafe c = true) : Pieces s s := by
  induction s using List.reverseRecOn with
  | nil => exact .nil
  | append_singleton s c ih =>
    exact .snoc (ih fun d hd => h d (List.mem_append_left _ hd)) (safe_piece (h c (by simp)))

/-- A quoted string with each quote in it set between double quotes, the pieces read so far before
it. -/
theorem escaped_word {t v u : Str} (pieces : Pieces t v) (hu : singleQuote ∉ u) (s : Str) :
    Word (t ++ singleQuote :: (u ++ escapeSingle s ++ [singleQuote])) (v ++ (u ++ s)) := by
  induction s generalizing t v u with
  | nil => simpa [escapeSingle] using Word.mk pieces (.single hu)
  | cons c s ih =>
    by_cases hc : c = singleQuote
    · subst hc
      have hbody : DoubleQuoted [singleQuote] [singleQuote] := .char .nil (by decide) (by decide)
      have h := ih (.snoc (.snoc pieces (.single hu)) (.double hbody)) (u := []) (by simp)
      simpa [escapeSingle] using h
    · have hu' : singleQuote ∉ u ++ [c] := by
        rw [List.mem_append,List.mem_singleton]
        rintro (h | h)
        · exact hu h
        · exact hc h.symm
      simpa [escapeSingle,hc] using ih pieces hu'

theorem word_shlexQuote (s : Str) : Word (shlexQuote s) s := by
  unfold shlexQuote
  split_ifs with hnil hsafe
  · subst hnil
    exact .mk .nil (.single (s := []) (by simp))
  · obtain ⟨s,c,rfl⟩ := (List.eq_nil_or_concat' s).resolve_left hnil
    have hall : ∀ d ∈ s ++ [c], isSafe d = true := List.all_eq_true.mp hsafe
    exact .mk (safe_pieces fun d hd => hall d (List.mem_append_left _ hd))
      (safe_piece (hall c (by simp)))
  · simpa using escaped_word .nil (u := []) (by simp) s

theorem intercalate_concat {α : Type*} (x : α) (l : List (List α)) (a : List α) :
    [x].intercalate (l ++ [a]) = (l.flatMap fun b => b ++ [x]) ++ a := by
  induction l with
  | nil => simp
  | cons b l ih =>
    rw [List.cons_append,List.intercalate_cons_of_ne_nil (by simp),ih]
    simp

theorem words_quoted (args : List Str) :
    Words args ((args.map shlexQuote).flatMap fun b => b ++ [0x20]) := by
  induction args using List.reverseRecOn with
  | nil => exact .nil
  | append_singleton args a ih =>
    have h := Words.word ih (word_shlexQuote a) (c := 0x20) (by decide)
    simpa using h

theorem renders_shlexJoin (args : List Str) : Renders args (shlexJoin args) := by
  obtain rfl | ⟨args,a,rfl⟩ := List.eq_nil_or_concat' args
  · exact .blank .nil
  · rw [shlexJoin,List.map_append,List.map_singleton,intercalate_concat]
    exact .word (words_quoted args) (word_shlexQuote a)

/-- What is joined is split again. -/
theorem shlexSplit_shlexJoin (args : List Str) : shlexSplit (shlexJoin args) = .ok args :=
  shlexSplit_eq_iff.mpr (renders_shlexJoin args)

end Python
