import Mathlib.Tactic.IntervalCases
import CodeExecutorApi.Python.Str

/-! Lines, fields and decimal numbers in Python's strings: `str.splitlines`, `str.split`,
`str.isdigit`, `int` and `str` of a number. -/
namespace Python

/-- The line boundaries of `str.splitlines`. -/
def isLineBreak (c : CodePoint) : Bool :=
  c.val ∈ [0x85,0x2028,0x2029] ∨ (0xA ≤ c.val ∧ c.val ≤ 0xD) ∨ (0x1C ≤ c.val ∧ c.val ≤ 0x1E)

/-- A carriage return and the line feed after it are one boundary. -/
def joinCrLf (afterCr : Bool) : Str → Str
  | [] => []
  | c :: s => if afterCr && c == 0xA then joinCrLf false s else c :: joinCrLf (c == 0xD) s

/-- `s.splitlines()` -/
def splitlines (s : Str) : List Str :=
  let lines := (joinCrLf false s).splitOnP isLineBreak
  if lines.getLast? = some [] then lines.dropLast else lines

/-- `s.split()`, at runs of white space. -/
def fields (s : Str) : List Str := (s.splitOnP isSpace).filter fun f => !f.isEmpty

example : splitlines (lit "a b\r\n\n  c") = [lit "a b",[],lit "  c"] := by decide
example : fields (lit " #1000   0 \t4") = [lit "#1000",lit "0",lit "4"] := by decide

/-- `str(n)` -/
def decimal (n : ℕ) : Str := (Nat.toDigits 10 n).map fun c => Fin.ofNat _ c.toNat

def asciiDigit (d : ℕ) : CodePoint := Fin.ofNat _ (0x30+d)

/-- The interpreter's table of digits, which differs between versions of Unicode: the characters
`str.isdigit` knows, and what those that `int` reads stand for. -/
structure DigitTable where
  isDigit : CodePoint → Bool
  value : CodePoint → Option ℕ
  isDigit_ascii : ∀ d < 10, isDigit (asciiDigit d) = true
  value_ascii : ∀ d < 10, value (asciiDigit d) = some d

/-- `int` refuses longer strings of digits. -/
def intMaxStrDigits : ℕ := 4300

namespace DigitTable
variable (table : DigitTable)

/-- `s.isdigit()` -/
def isdigit (s : Str) : Bool := !s.isEmpty && s.all table.isDigit

def readDigits (s : Str) : Option ℕ := s.foldlM (fun n c => (table.value c).map fun d => 10*n+d) 0

/-- `int(s)` of a string without signs and spaces. `none` is a `ValueError`. -/
def int (s : Str) : Option ℕ := if intMaxStrDigits < s.length then none else table.readDigits s

/-- The table of an interpreter that knows the ASCII digits alone. -/
def ascii : DigitTable where
  isDigit c := decide (0x30 ≤ c.val ∧ c.val ≤ 0x39)
  value c := if 0x30 ≤ c.val ∧ c.val ≤ 0x39 then some (c.val-0x30) else none
  isDigit_ascii := by decide
  value_ascii := by decide

end DigitTable

theorem decimal_of_lt {n : ℕ} (h : n < 10) : decimal n = [asciiDigit n] := by
  rw [decimal,Nat.toDigits_of_lt_base h]
  interval_cases n <;> rfl

theorem decimal_of_le {n : ℕ} (h : 10 ≤ n) :
    decimal n = decimal (n/10) ++ [asciiDigit (n%10)] := by
  have hmod : n%10 < 10 := Nat.mod_lt n (by omega)
  rw [← decimal_of_lt hmod,decimal,Nat.toDigits_of_base_le (by omega) h,List.map_append,
    ← Nat.toDigits_of_lt_base hmod]
  rfl

/-- Induction along the digits of a number. -/
theorem decimal_induction {P : ℕ → Prop} (small : ∀ n < 10, P n)
    (large : ∀ n, 10 ≤ n → P (n/10) → P n) (n : ℕ) : P n := by
  induction n using Nat.strong_induction_on with
  | _ n ih =>
    by_cases h : n < 10
    · exact small n h
    · exact large n (by omega) (ih (n/10) (by omega))

theorem isDigit_of_mem_decimal (table : DigitTable) {n : ℕ} {c : CodePoint} (h : c ∈ decimal n) :
    table.isDigit c = true := by
  induction n using decimal_induction with
  | small n hn =>
    rw [decimal_of_lt hn,List.mem_singleton] at h
    rw [h]
    exact table.isDigit_ascii n hn
  | large n hn ih =>
    rw [decimal_of_le hn,List.mem_append,List.mem_singleton] at h
    cases h with
    | inl h => exact ih h
    | inr h =>
      rw [h]
      exact table.isDigit_ascii _ (Nat.mod_lt n (by omega))

theorem decimal_ne_nil (n : ℕ) : decimal n ≠ [] := by
  induction n using decimal_induction with
  | small n hn => simp [decimal_of_lt hn]
  | large n hn => simp [decimal_of_le hn]

theorem readDigits_decimal (table : DigitTable) (n : ℕ) :
    table.readDigits (decimal n) = some n := by
  induction n using decimal_induction with
  | small n hn =>
    rw [decimal_of_lt hn]
    simp [DigitTable.readDigits,table.value_ascii n hn]
  | large n hn ih =>
    have hdigit := table.value_ascii (n%10) (Nat.mod_lt n (by omega))
    rw [DigitTable.readDigits] at ih ⊢
    rw [decimal_of_le hn,List.foldlM_append,ih]
    simp [hdigit]
    omega

/-- What `int` reads from the numeral of a number is the number. -/
theorem int_decimal (table : DigitTable) {n k : ℕ} (h : table.int (decimal n) = some k) :
    k = n := by
  rw [DigitTable.int] at h
  split_ifs at h
  rw [readDigits_decimal] at h
  cases h
  rfl

theorem decimal_injective : Function.Injective decimal := by
  intro m n h
  have hm := readDigits_decimal .ascii m
  rw [h,readDigits_decimal] at hm
  cases hm
  rfl

end Python
