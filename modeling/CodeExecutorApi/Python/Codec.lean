import CodeExecutorApi.Posix.Tree
import CodeExecutorApi.Python.Str

/-! The file system encoding: UTF-8 with `surrogateescape`, which stands for a byte that is not
UTF-8 by a surrogate. -/
namespace Python
open Posix

def byte (n : ℕ) : Byte := Fin.ofNat 256 n

theorem byte_val {n : ℕ} (h : n < 256) : (byte n).val = n := Nat.mod_eq_of_lt h

def isSurrogate (c : CodePoint) : Bool := 0xD800 ≤ c.val ∧ c.val < 0xE000

/-- Strict UTF-8 refuses a string with a surrogate. -/
def hasSurrogate (s : Str) : Bool := s.any isSurrogate

/-- `none` is a `UnicodeEncodeError`. -/
def encodeChar (c : CodePoint) : Option Bytes :=
  if c.val < 0x80 then some [byte c]
  else if c.val < 0x800 then some [byte (0xC0 + c/0x40), byte (0x80 + c%0x40)]
  else if isSurrogate c then
    if 0xDC80 ≤ c.val ∧ c.val < 0xDD00 then some [byte (c-0xDC00)] else none
  else if c.val < 0x10000 then
    some [byte (0xE0 + c/0x1000), byte (0x80 + c/0x40%0x40), byte (0x80 + c%0x40)]
  else
    some [byte (0xF0 + c/0x40000), byte (0x80 + c/0x1000%0x40), byte (0x80 + c/0x40%0x40),
      byte (0x80 + c%0x40)]

/-- `os.fsencode`. -/
def fsencode : Str → Option Bytes
  | [] => some []
  | c :: s => (encodeChar c).bind fun b => (fsencode s).map fun bs => b ++ bs

/-- A continuation byte carries six bits. -/
def isTail (b : Byte) : Bool := 0x80 ≤ b.val ∧ b.val < 0xC0

/-- A code point with the bytes after it, if the encoding was the shortest one and is no
surrogate. -/
def scalar (least n : ℕ) (rest : Bytes) : Option (CodePoint × Bytes) :=
  if h : n < 0x110000 then
    if least ≤ n ∧ isSurrogate ⟨n,h⟩ = false then some (⟨n,h⟩,rest) else none
  else none

/-- The first code point of a UTF-8 string. -/
def decodeFirst : Bytes → Option (CodePoint × Bytes)
  | [] => none
  | a :: rest =>
    if a.val < 0x80 then scalar 0 a rest
    else if 0xC0 ≤ a.val ∧ a.val < 0xE0 then
      match rest with
      | b :: rest => if isTail b then scalar 0x80 ((a-0xC0)*0x40 + (b-0x80)) rest else none
      | _ => none
    else if 0xE0 ≤ a.val ∧ a.val < 0xF0 then
      match rest with
      | b :: c :: rest =>
        if isTail b ∧ isTail c then
          scalar 0x800 ((a-0xE0)*0x1000 + (b-0x80)*0x40 + (c-0x80)) rest
        else none
      | _ => none
    else if 0xF0 ≤ a.val then
      match rest with
      | b :: c :: d :: rest =>
        if isTail b ∧ isTail c ∧ isTail d then
          scalar 0x10000 ((a-0xF0)*0x40000 + (b-0x80)*0x1000 + (c-0x80)*0x40 + (d-0x80)) rest
        else none
      | _ => none
    else none

/-- Every byte is read once, so the length of the string is fuel enough. -/
def decodeAll : ℕ → Bytes → Str
  | n+1, a :: rest =>
    match decodeFirst (a :: rest) with
    | some (c,rest) => c :: decodeAll n rest
    | none => Fin.ofNat _ (0xDC00 + a) :: decodeAll n rest
  | _, _ => []

/-- `os.fsdecode`. -/
def fsdecode (b : Bytes) : Str := decodeAll b.length b

example : fsencode [0x61,0xE9,0x20AC,0x1F600,0xDCFF] =
    some [0x61,0xC3,0xA9,0xE2,0x82,0xAC,0xF0,0x9F,0x98,0x80,0xFF] := by decide
example : fsdecode [0x61,0xC3,0xA9,0xE2,0x82,0xAC,0xF0,0x9F,0x98,0x80,0xFF] =
  [0x61,0xE9,0x20AC,0x1F600,0xDCFF] := by decide

theorem scalar_eq {least : ℕ} {c : CodePoint} {rest : Bytes} {n : ℕ} (hn : n = c.val)
    (hl : least ≤ c.val) (hs : isSurrogate c = false) : scalar least n rest = some (c,rest) := by
  subst n
  rw [scalar,dif_pos c.isLt,if_pos ⟨hl,hs⟩]

theorem isTail_byte {n : ℕ} (h : n < 0x40) : isTail (byte (0x80 + n)) = true := by
  simp only [isTail,byte_val (show 0x80 + n < 256 by omega),decide_eq_true_eq]
  omega

/-- Decoding takes back exactly the bytes of a code point that is no surrogate. -/
theorem decodeFirst_encodeChar {c : CodePoint} {b rest : Bytes} (hs : isSurrogate c = false)
    (h : encodeChar c = some b) : decodeFirst (b ++ rest) = some (c,rest) := by
  have hc := c.isLt
  have tail (n : ℕ) : (byte (0x80 + n%0x40)).val = 0x80 + n%0x40 := byte_val (by omega)
  have isTail (n : ℕ) : isTail (byte (0x80 + n%0x40)) = true := isTail_byte (by omega)
  simp only [encodeChar,hs,Bool.false_eq_true,if_false] at h
  split_ifs at h with h1 h2 h3
  all_goals cases h
  · have ha : (byte c).val = c := byte_val (by omega)
    simp only [List.cons_append,List.nil_append,decodeFirst,ha]
    rw [if_pos h1]
    exact scalar_eq rfl (Nat.zero_le _) hs
  · have ha : (byte (0xC0 + c/0x40)).val = 0xC0 + c/0x40 := byte_val (by omega)
    simp only [List.cons_append,List.nil_append,decodeFirst,ha,tail,isTail]
    rw [if_neg (by omega),if_pos (by omega),if_pos trivial]
    exact scalar_eq (by omega) (by omega) hs
  · have ha : (byte (0xE0 + c/0x1000)).val = 0xE0 + c/0x1000 := byte_val (by omega)
    simp only [List.cons_append,List.nil_append,decodeFirst,ha,tail,isTail]
    rw [if_neg (by omega),if_neg (by omega),if_pos (by omega),if_pos ⟨trivial,trivial⟩]
    exact scalar_eq (by omega) (by omega) hs
  · have ha : (byte (0xF0 + c/0x40000)).val = 0xF0 + c/0x40000 := byte_val (by omega)
    simp only [List.cons_append,List.nil_append,decodeFirst,ha,tail,isTail]
    rw [if_neg (by omega),if_neg (by omega),if_neg (by omega),if_pos (by omega),
      if_pos ⟨trivial,trivial,trivial⟩]
    exact scalar_eq (by omega) (by omega) hs

/-- An ASCII byte stands for its own character only. -/
theorem encodeChar_of_ascii {c : CodePoint} {b : Bytes} {a : Byte} (h : encodeChar c = some b)
    (ha : a ∈ b) (hlt : a.val < 0x80) : b = [a] ∧ c.val = a.val := by
  have hc := c.isLt
  unfold encodeChar at h
  split_ifs at h with h1 h2 h3 h4 h5 <;> cases h <;> simp only [List.mem_cons,List.not_mem_nil,
    or_false] at ha
  · subst ha
    exact ⟨rfl,(byte_val (by omega)).symm⟩
  · rcases ha with rfl | rfl <;> rw [byte_val (by omega)] at hlt <;> omega
  · subst ha
    rw [byte_val (by omega)] at hlt
    omega
  · rcases ha with rfl | rfl | rfl <;> rw [byte_val (by omega)] at hlt <;> omega
  · rcases ha with rfl | rfl | rfl | rfl <;> rw [byte_val (by omega)] at hlt <;> omega

theorem encodeChar_ne_nil {c : CodePoint} {b : Bytes} (h : encodeChar c = some b) : b ≠ [] := by
  unfold encodeChar at h
  split_ifs at h <;> cases h <;> simp

theorem fsencode_cons {c : CodePoint} {s : Str} {bs : Bytes} :
    fsencode (c :: s) = some bs ↔
      ∃ b r, encodeChar c = some b ∧ fsencode s = some r ∧ bs = b ++ r := by
  rw [fsencode]
  cases encodeChar c with
  | none => simp
  | some b =>
    cases fsencode s with
    | none => simp
    | some r => simp [eq_comm]

theorem fsencode_eq_nil {s : Str} : fsencode s = some [] ↔ s = [] := by
  cases s with
  | nil => simp [fsencode]
  | cons c s =>
    rw [fsencode_cons]
    constructor
    · rintro ⟨b,r,hb,_,h⟩
      exact absurd (List.append_eq_nil_iff.mp h.symm).1 (encodeChar_ne_nil hb)
    · intro h
      cases h

theorem encodeChar_ascii {c : CodePoint} (h : c.val < 0x80) : encodeChar c = some [byte c] := if_pos h

theorem fsencode_ascii {s : Str} (h : ∀ c ∈ s, c.val < 0x80) :
    fsencode s = some (s.map fun c => byte c.val) := by
  induction s with
  | nil => rfl
  | cons c s ih =>
    rw [fsencode,encodeChar_ascii (h c (by simp)),ih fun d hd => h d (by simp [hd])]
    rfl

theorem exists_fsencode {s : Str} (hs : hasSurrogate s = false) : ∃ b, fsencode s = some b := by
  induction s with
  | nil => exact ⟨[],rfl⟩
  | cons c s ih =>
    simp only [hasSurrogate,List.any_cons,Bool.or_eq_false_iff] at hs
    obtain ⟨r,hr⟩ := ih hs.2
    have hc : ∃ b, encodeChar c = some b := by
      unfold encodeChar
      rw [hs.1]
      split_ifs <;> first | exact ⟨_,rfl⟩ | contradiction
    obtain ⟨b,hb⟩ := hc
    exact ⟨b ++ r,fsencode_cons.mpr ⟨b,r,hb,hr,rfl⟩⟩

/-- Two strings without surrogates never name the same file. -/
theorem fsencode_injective {s t : Str} {b : Bytes} (hs : hasSurrogate s = false)
    (ht : hasSurrogate t = false) (h : fsencode s = some b) (h' : fsencode t = some b) : s = t := by
  induction s generalizing t b with
  | nil =>
    cases h
    exact (fsencode_eq_nil.mp h').symm
  | cons c s ih =>
    obtain ⟨x,r,hx,hr,rfl⟩ := fsencode_cons.mp h
    cases t with
    | nil =>
      have hb : x ++ r = [] := (Option.some.inj h').symm
      exact absurd (List.append_eq_nil_iff.mp hb).1 (encodeChar_ne_nil hx)
    | cons d t =>
      obtain ⟨y,q,hy,hq,heq⟩ := fsencode_cons.mp h'
      simp only [hasSurrogate,List.any_cons,Bool.or_eq_false_iff] at hs ht
      have hd : decodeFirst (y ++ q) = some (d,q) := decodeFirst_encodeChar ht.1 hy
      rw [← heq,decodeFirst_encodeChar hs.1 hx] at hd
      obtain ⟨rfl,rfl⟩ := Prod.mk.inj (Option.some.inj hd)
      rw [ih hs.2 ht.2 hr hq]

/-- An ASCII byte is in the encoding only if its character is in the string. -/
theorem mem_of_mem_fsencode {s : Str} {b : Bytes} {a : Byte} (h : fsencode s = some b) (ha : a ∈ b)
    (hlt : a.val < 0x80) : ∃ c ∈ s, c.val = a.val := by
  induction s generalizing b with
  | nil =>
    cases h
    cases ha
  | cons c s ih =>
    obtain ⟨x,r,hx,hr,rfl⟩ := fsencode_cons.mp h
    rcases List.mem_append.mp ha with ha | ha
    · exact ⟨c,List.mem_cons_self,(encodeChar_of_ascii hx ha hlt).2⟩
    · obtain ⟨d,hd,hda⟩ := ih hr ha
      exact ⟨d,List.mem_cons_of_mem _ hd,hda⟩

/-- An ASCII name comes from the same characters only. -/
theorem val_of_fsencode {s : Str} {b : Bytes} (h : fsencode s = some b)
    (hlt : ∀ a ∈ b, a.val < 0x80) : s.map Fin.val = b.map Fin.val := by
  induction s generalizing b with
  | nil =>
    cases h
    rfl
  | cons c s ih =>
    obtain ⟨x,r,hx,hr,rfl⟩ := fsencode_cons.mp h
    obtain ⟨a,x',rfl⟩ := List.exists_cons_of_ne_nil (encodeChar_ne_nil hx)
    obtain ⟨hax,hca⟩ := encodeChar_of_ascii hx List.mem_cons_self (hlt a (by simp))
    have hr' := ih hr fun a ha => hlt a (List.mem_append_right _ ha)
    rw [hax,List.map_cons,hr',hca]
    rfl

/-- Only one string is encoded as a given ASCII name. -/
theorem eq_of_fsencode_ascii {s t : Str} {b : Bytes} (hs : fsencode s = some b)
    (ht : fsencode t = some b) (hlt : ∀ a ∈ b, a.val < 0x80) : s = t := by
  refine List.map_injective_iff.mpr Fin.val_injective ?_
  rw [val_of_fsencode hs hlt,val_of_fsencode ht hlt]

theorem scalar_some {least n : ℕ} {c : CodePoint} {rest rest' : Bytes}
    (h : scalar least n rest = some (c,rest')) :
    c.val = n ∧ least ≤ n ∧ isSurrogate c = false ∧ rest' = rest := by
  unfold scalar at h
  split_ifs at h with h1 h2
  obtain ⟨rfl,rfl⟩ := Prod.mk.inj (Option.some.inj h)
  exact ⟨rfl,h2.1,h2.2,rfl⟩

theorem byte_eq {a : Byte} {n : ℕ} (h : n = a.val) : byte n = a := by
  subst n
  exact Fin.ext (Nat.mod_eq_of_lt a.isLt)

/-- Encoding takes a decoded code point back to the bytes it was read from. -/
theorem encodeChar_decodeFirst {b rest : Bytes} {c : CodePoint}
    (h : decodeFirst b = some (c,rest)) : ∃ x, encodeChar c = some x ∧ b = x ++ rest := by
  cases b with
  | nil => cases h
  | cons a r =>
    have ha := a.isLt
    unfold decodeFirst at h
    dsimp only at h
    split_ifs at h with h1 h2 h3 h4
    · obtain ⟨hc,-,hs,rfl⟩ := scalar_some h
      refine ⟨[a],?_,rfl⟩
      rw [encodeChar,if_pos (by omega),byte_eq hc]
    · rcases r with _ | ⟨b,r⟩
      · cases h
      dsimp only at h
      split_ifs at h with ht
      obtain ⟨hc,hl,hs,rfl⟩ := scalar_some h
      simp only [isTail,decide_eq_true_eq] at ht
      refine ⟨[a,b],?_,rfl⟩
      simp only [encodeChar,hs,Bool.false_eq_true,if_false]
      rw [if_neg (by omega),if_pos (by omega),byte_eq (a := a) (by omega),
        byte_eq (a := b) (by omega)]
    · rcases r with _ | ⟨b,_ | ⟨d,r⟩⟩
      · cases h
      · cases h
      dsimp only at h
      split_ifs at h with ht
      obtain ⟨hc,hl,hs,rfl⟩ := scalar_some h
      simp only [isTail,decide_eq_true_eq] at ht
      refine ⟨[a,b,d],?_,rfl⟩
      simp only [encodeChar,hs,Bool.false_eq_true,if_false]
      rw [if_neg (by omega),if_neg (by omega),if_pos (by omega),byte_eq (a := a) (by omega),
        byte_eq (a := b) (by omega),byte_eq (a := d) (by omega)]
    · rcases r with _ | ⟨b,_ | ⟨d,_ | ⟨e,r⟩⟩⟩
      · cases h
      · cases h
      · cases h
      dsimp only at h
      split_ifs at h with ht
      obtain ⟨hc,hl,hs,rfl⟩ := scalar_some h
      simp only [isTail,decide_eq_true_eq] at ht
      refine ⟨[a,b,d,e],?_,rfl⟩
      simp only [encodeChar,hs,Bool.false_eq_true,if_false]
      rw [if_neg (by omega),if_neg (by omega),if_neg (by omega),byte_eq (a := a) (by omega),
        byte_eq (a := b) (by omega),byte_eq (a := d) (by omega),byte_eq (a := e) (by omega)]

/-- A byte that starts no character is no ASCII byte. -/
theorem decodeFirst_of_ascii {a : Byte} {rest : Bytes} (ha : a.val < 0x80) :
    decodeFirst (a :: rest) ≠ none := by
  have hlt : a.val < 0x110000 := by omega
  have hs : isSurrogate ⟨a.val,hlt⟩ = false := by
    simp only [isSurrogate,decide_eq_false_iff_not]
    omega
  unfold decodeFirst
  dsimp only
  rw [if_pos ha,scalar,dif_pos hlt,if_pos ⟨Nat.zero_le _,hs⟩]
  exact Option.some_ne_none _

theorem encodeChar_escape {a : Byte} (ha : 0x80 ≤ a.val) :
    encodeChar (Fin.ofNat _ (0xDC00 + a)) = some [a] := by
  have hlt := a.isLt
  have hc : (Fin.ofNat 0x110000 (0xDC00 + a)).val = 0xDC00 + a := Nat.mod_eq_of_lt (by omega)
  have hs : isSurrogate (Fin.ofNat _ (0xDC00 + a)) = true := by
    simp only [isSurrogate,hc,decide_eq_true_eq]
    omega
  rw [encodeChar,if_neg (by omega),if_neg (by omega),if_pos hs,if_pos (by omega),
    byte_eq (a := a) (by omega)]

theorem fsencode_decodeAll (n : ℕ) (b : Bytes) (h : b.length ≤ n) :
    fsencode (decodeAll n b) = some b := by
  induction n generalizing b with
  | zero =>
    cases b with
    | nil => rfl
    | cons a b => cases h
  | succ n ih =>
    cases b with
    | nil => rfl
    | cons a b =>
      rw [List.length_cons] at h
      unfold decodeAll
      cases hd : decodeFirst (a :: b) with
      | some p =>
        obtain ⟨c,rest⟩ := p
        obtain ⟨x,hx,heq⟩ := encodeChar_decodeFirst hd
        have hlen := congrArg List.length heq
        have hpos := List.length_pos_iff.mpr (encodeChar_ne_nil hx)
        rw [List.length_cons,List.length_append] at hlen
        exact fsencode_cons.mpr ⟨x,rest,hx,ih rest (by omega),heq⟩
      | none =>
        have ha : 0x80 ≤ a.val := by
          by_contra hlt
          exact decodeFirst_of_ascii (by omega) hd
        exact fsencode_cons.mpr ⟨[a],b,encodeChar_escape ha,ih b (by omega),rfl⟩

/-- Every file name survives decoding. -/
theorem fsencode_fsdecode (b : Bytes) : fsencode (fsdecode b) = some b :=
  fsencode_decodeAll _ b le_rfl

theorem isSurrogate_of_decodeFirst {b rest : Bytes} {c : CodePoint}
    (h : decodeFirst b = some (c,rest)) : isSurrogate c = false := by
  unfold decodeFirst at h
  repeat' split at h
  all_goals first | exact (scalar_some h).2.2.1 | cases h

theorem decodeFirst_append {b rest : Bytes} {c : CodePoint} (r : Bytes)
    (h : decodeFirst b = some (c,rest)) : decodeFirst (b ++ r) = some (c,rest ++ r) := by
  obtain ⟨x,hx,rfl⟩ := encodeChar_decodeFirst h
  rw [List.append_assoc]
  exact decodeFirst_encodeChar (isSurrogate_of_decodeFirst h) hx

/-- An ASCII byte ends whatever is before it. -/
theorem decodeFirst_append_none {b : Bytes} {a : Byte} (r : Bytes) (hne : b ≠ [])
    (ha : a.val < 0x80) (h : decodeFirst b = none) : decodeFirst (b ++ a :: r) = none := by
  cases hd : decodeFirst (b ++ a :: r) with
  | none => rfl
  | some p =>
    obtain ⟨c,rest⟩ := p
    obtain ⟨x,hx,heq⟩ := encodeChar_decodeFirst hd
    have hdecode (y : Bytes) : decodeFirst (x ++ y) = some (c,y) :=
      decodeFirst_encodeChar (isSurrogate_of_decodeFirst hd) hx
    have hprefix : ¬x <+: b := by
      rintro ⟨y,rfl⟩
      rw [hdecode] at h
      cases h
    rcases List.append_eq_append_iff.mp heq with ⟨y,hy,hr⟩ | ⟨y,hy,-⟩
    · cases y with
      | nil =>
        rw [List.append_nil] at hy
        exact absurd (hy ▸ List.prefix_rfl) hprefix
      | cons d y =>
        obtain ⟨rfl,-⟩ := List.cons.inj hr
        have hmem : a ∈ x := by
          rw [hy]
          simp
        have hone := (encodeChar_of_ascii hx hmem ha).1
        rw [hone] at hy
        have hlen := congrArg List.length hy
        have hpos := List.length_pos_iff.mpr hne
        simp only [List.length_append,List.length_cons,List.length_nil] at hlen
        omega
    · exact absurd ⟨y,hy.symm⟩ hprefix

theorem length_of_decodeFirst {b rest : Bytes} {c : CodePoint}
    (h : decodeFirst b = some (c,rest)) : rest.length < b.length := by
  obtain ⟨x,hx,rfl⟩ := encodeChar_decodeFirst h
  have hpos := List.length_pos_iff.mpr (encodeChar_ne_nil hx)
  rw [List.length_append]
  omega

/-- Any fuel that is enough gives the same string. -/
theorem decodeAll_eq {b : Bytes} {n m : ℕ} (hn : b.length ≤ n) (hm : b.length ≤ m) :
    decodeAll n b = decodeAll m b := by
  induction n generalizing b m with
  | zero =>
    cases b with
    | nil => cases m <;> rfl
    | cons a b => cases hn
  | succ n ih =>
    cases b with
    | nil => cases m <;> rfl
    | cons a b =>
      cases m with
      | zero => cases hm
      | succ m =>
        rw [List.length_cons] at hn hm
        rw [decodeAll,decodeAll]
        cases hd : decodeFirst (a :: b) with
        | none =>
          dsimp only
          rw [ih (b := b) (m := m) (by omega) (by omega)]
        | some p =>
          obtain ⟨c,rest⟩ := p
          have hlen := length_of_decodeFirst hd
          rw [List.length_cons] at hlen
          dsimp only
          rw [ih (b := rest) (m := m) (by omega) (by omega)]

theorem fsdecode_of_some {b rest : Bytes} {c : CodePoint} (h : decodeFirst b = some (c,rest)) :
    fsdecode b = c :: fsdecode rest := by
  cases b with
  | nil => cases h
  | cons a b =>
    have hlen := length_of_decodeFirst h
    rw [List.length_cons] at hlen
    rw [fsdecode,List.length_cons,decodeAll,h]
    dsimp only
    rw [fsdecode,decodeAll_eq (m := rest.length) (by omega) le_rfl]

theorem fsdecode_of_none {b : Bytes} {a : Byte} (h : decodeFirst (a :: b) = none) :
    fsdecode (a :: b) = Fin.ofNat _ (0xDC00 + a) :: fsdecode b := by
  rw [fsdecode,List.length_cons,decodeAll,h]
  rfl

theorem decodeFirst_ascii {a : Byte} {r : Bytes} (ha : a.val < 0x80) :
    decodeFirst (a :: r) = some (Fin.ofNat _ a.val,r) := by
  have hval : (Fin.ofNat 0x110000 a.val).val = a.val := Nat.mod_eq_of_lt (by omega)
  unfold decodeFirst
  dsimp only
  rw [if_pos ha]
  refine scalar_eq hval.symm (Nat.zero_le _) ?_
  simp only [isSurrogate,hval,decide_eq_false_iff_not]
  omega

/-- Decoding is done on the two sides of an ASCII byte. -/
theorem fsdecode_append {b r : Bytes} {a : Byte} (ha : a.val < 0x80) :
    fsdecode (b ++ a :: r) = fsdecode b ++ Fin.ofNat _ a.val :: fsdecode r := by
  induction hn : b.length using Nat.strong_induction_on generalizing b with
  | _ n ih =>
    cases b with
    | nil => exact fsdecode_of_some (decodeFirst_ascii ha)
    | cons x b =>
      rw [List.length_cons] at hn
      cases hd : decodeFirst (x :: b) with
      | none =>
        have hnone := decodeFirst_append_none r (List.cons_ne_nil x b) ha hd
        have hall : fsdecode (x :: b ++ a :: r) = _ := fsdecode_of_none hnone
        rw [hall,fsdecode_of_none hd,List.cons_append]
        exact congrArg _ (ih b.length (by omega) rfl)
      | some p =>
        obtain ⟨c,rest⟩ := p
        have hlen := length_of_decodeFirst hd
        rw [List.length_cons] at hlen
        rw [fsdecode_of_some hd,fsdecode_of_some (decodeFirst_append (a :: r) hd),
          ih rest.length (by omega) rfl]
        rfl

/-- Decoding takes back what strict UTF-8 has encoded. -/
theorem fsdecode_fsencode {s : Str} {b : Bytes} (hs : hasSurrogate s = false)
    (h : fsencode s = some b) : fsdecode b = s := by
  induction s generalizing b with
  | nil =>
    cases h
    rfl
  | cons c s ih =>
    obtain ⟨x,r,hx,hr,rfl⟩ := fsencode_cons.mp h
    simp only [hasSurrogate,List.any_cons,Bool.or_eq_false_iff] at hs
    rw [fsdecode_of_some (decodeFirst_encodeChar hs.1 hx),ih hs.2 hr]

theorem mem_fsencode_of_mem {s : Str} {b : Bytes} {c : CodePoint} {a : Byte}
    (h : fsencode s = some b) (hc : c ∈ s) (hlt : c.val < 0x80) (ha : c.val = a.val) : a ∈ b := by
  induction s generalizing b with
  | nil => cases hc
  | cons d s ih =>
    obtain ⟨x,r,hx,hr,rfl⟩ := fsencode_cons.mp h
    rcases List.mem_cons.mp hc with rfl | hc
    · rw [encodeChar,if_pos hlt,byte_eq ha] at hx
      cases hx
      exact List.mem_append_left _ List.mem_cons_self
    · exact List.mem_append_right _ (ih hr hc)

end Python
