import Mathlib.Algebra.GroupWithZero.Nat
import Mathlib.Data.List.Lex
import Mathlib.Data.List.Sort
import Mathlib.Data.List.Nodup
import Mathlib.Order.Fin.Basic

/-! Python's `str`, its `sorted` and its `dict`. A string is a list of code points, surrogates
included, and strings are compared code point by code point. -/
namespace Python

abbrev CodePoint := Fin 0x110000

instance codePoints_neZero : NeZero 0x110000 := ⟨by decide⟩

abbrev Str := List CodePoint

instance str_lawfulBEq : LawfulBEq Str := inferInstance

/-- A string literal. -/
def lit (s : String) : Str := s.toList.map fun c => Fin.ofNat _ c.toNat

/-- `str.isspace` of one character. -/
def isSpace (c : CodePoint) : Bool :=
  c.val ∈ [0x20,0x85,0xA0,0x1680,0x2028,0x2029,0x202F,0x205F,0x3000] ∨
    (0x9 ≤ c.val ∧ c.val ≤ 0xD) ∨ (0x1C ≤ c.val ∧ c.val ≤ 0x1F) ∨ (0x2000 ≤ c.val ∧ c.val ≤ 0x200A)

/-- `s.rstrip()` -/
def trimRight (s : Str) : Str := (s.reverse.dropWhile isSpace).reverse

/-- `s.strip()` -/
def trim (s : Str) : Str := trimRight (s.dropWhile isSpace)

example : trim (lit " bash\n") = lit "bash" := by decide

section Sorted
variable {α : Type*} [LinearOrder α]

/-- `sorted`, and `list.sort`. -/
def sorted (l : List α) : List α := l.mergeSort fun a b => decide (a ≤ b)

theorem sorted_perm (l : List α) : (sorted l).Perm l := List.mergeSort_perm _ _

@[simp] theorem mem_sorted {l : List α} {a : α} : a ∈ sorted l ↔ a ∈ l := (sorted_perm l).mem_iff

theorem sorted_pairwise_le (l : List α) : (sorted l).Pairwise (· ≤ ·) := by
  have hp : (sorted l).Pairwise fun a b => decide (a ≤ b) = true :=
    List.pairwise_mergeSort ?_ ?_ l
  · exact hp.imp fun h => by simpa using h
  · intro a b c hab hbc
    simp only [decide_eq_true_eq] at hab hbc ⊢
    exact hab.trans hbc
  · intro a b
    simpa using le_total a b

/-- Without duplicates the order is strict. -/
theorem sorted_pairwise_lt {l : List α} (h : l.Nodup) : (sorted l).Pairwise (· < ·) := by
  have hn : (sorted l).Pairwise (· ≠ ·) := (sorted_perm l).nodup_iff.mpr h
  exact (sorted_pairwise_le l).imp₂ (fun _ _ hle hne => lt_of_le_of_ne hle hne) hn

end Sorted

/-- A dictionary in the order of its insertions. -/
structure Dict (κ υ : Type*) where
  items : List (κ × υ)
  nodup : (items.map Prod.fst).Nodup

namespace Dict
variable {κ υ : Type*}

def keys (d : Dict κ υ) : List κ := d.items.map Prod.fst

variable [DecidableEq κ]

def get (d : Dict κ υ) (k : κ) : Option υ := d.items.lookup k

theorem get_eq_some_iff {d : Dict κ υ} {k : κ} {v : υ} : d.get k = some v ↔ (k,v) ∈ d.items := by
  obtain ⟨items,nodup⟩ := d
  change items.lookup k = some v ↔ (k,v) ∈ items
  induction items with
  | nil => simp
  | cons p items ih =>
    obtain ⟨a,b⟩ := p
    obtain ⟨ha,hn⟩ := List.nodup_cons.mp nodup
    rw [List.lookup_cons,List.mem_cons,Prod.mk.injEq]
    by_cases hk : k = a
    · subst a
      have hb : (k,v) ∉ items := fun hv => ha (List.mem_map.mpr ⟨_,hv,rfl⟩)
      simp [hb,eq_comm]
    · have hk' : (k == a) = false := by simpa using hk
      simp [hk,hk',ih hn]

theorem mem_keys_iff {d : Dict κ υ} {k : κ} : k ∈ d.keys ↔ ∃ v, d.get k = some v := by
  simp [keys,get_eq_some_iff]

omit [DecidableEq κ] in
theorem keys_nodup (d : Dict κ υ) : d.keys.Nodup := d.nodup

theorem keys_assign {items : List (κ × υ)} (k : κ) (v : υ) :
    (items.map fun e => if e.1 = k then (k,v) else e).map Prod.fst = items.map Prod.fst := by
  rw [List.map_map]
  refine List.map_congr_left fun e _ => ?_
  simp only [Function.comp_apply]
  split_ifs with he
  · exact he.symm
  · rfl

/-- `d[k] = v` -/
def assign (d : Dict κ υ) (k : κ) (v : υ) : Dict κ υ :=
  if h : k ∈ d.items.map Prod.fst then
    ⟨d.items.map fun e => if e.1 = k then (k,v) else e,by rw [keys_assign]; exact d.nodup⟩
  else
    ⟨d.items ++ [(k,v)],by
      rw [List.map_append]
      refine List.nodup_append.mpr ⟨d.nodup,List.nodup_singleton k,fun a ha b hb hab => ?_⟩
      have hk : a = k := hab.trans (List.mem_singleton.mp hb)
      exact h (hk ▸ ha)⟩

/-- `{k: v for k, v in items}` -/
def ofItems (items : List (κ × υ)) : Dict κ υ := items.foldl (fun d e => d.assign e.1 e.2) ⟨[],by simp⟩

/-- `{k: f(v) for k, v in d.items()}`. -/
def mapValues {ω : Type*} (f : υ → ω) (d : Dict κ υ) : Dict κ ω where
  items := d.items.map fun e => (e.1,f e.2)
  nodup := by
    have h : (d.items.map fun e => (e.1,f e.2)).map Prod.fst = d.items.map Prod.fst := by simp
    rw [h]
    exact d.nodup

omit [DecidableEq κ] in
@[simp] theorem keys_mapValues {ω : Type*} (f : υ → ω) (d : Dict κ υ) :
    (d.mapValues f).keys = d.keys := by simp [keys,mapValues]

theorem get_mapValues {ω : Type*} (f : υ → ω) (d : Dict κ υ) (k : κ) :
    (d.mapValues f).get k = (d.get k).map f := by
  obtain ⟨items,nodup⟩ := d
  change (items.map fun e => (e.1,f e.2)).lookup k = (items.lookup k).map f
  clear nodup
  induction items with
  | nil => rfl
  | cons e items ih =>
    rw [List.map_cons,List.lookup_cons,List.lookup_cons,ih]
    cases k == e.1 <;> rfl

end Dict
end Python
