import Mathlib.Algebra.GroupWithZero.Nat
import Mathlib.Data.List.Basic

/-! A file tree with what a POSIX kernel stores about each entry. A directory is the list of its
entries, and the first entry of a name is the one that counts. -/
namespace Posix

abbrev Byte := Fin 256

instance bytes_neZero : NeZero 256 := ⟨by decide⟩

instance byte_lawfulBEq : LawfulBEq Byte := inferInstance

abbrev Bytes := List Byte

def separator : Byte := 0x2F

def thisDir : Bytes := [0x2E]

def parentDir : Bytes := [0x2E,0x2E]

/-- What can be the name of an entry. -/
structure IsName (c : Bytes) : Prop where
  ne_nil : c ≠ []
  ne_thisDir : c ≠ thisDir
  ne_parentDir : c ≠ parentDir
  separator_notMem : separator ∉ c
  nul_notMem : 0 ∉ c

theorem isName_iff (c : Bytes) :
    IsName c ↔ c ≠ [] ∧ c ≠ thisDir ∧ c ≠ parentDir ∧ separator ∉ c ∧ 0 ∉ c :=
  ⟨fun h => ⟨h.1,h.2,h.3,h.4,h.5⟩,fun h => ⟨h.1,h.2.1,h.2.2.1,h.2.2.2.1,h.2.2.2.2⟩⟩

instance (c : Bytes) : Decidable (IsName c) := decidable_of_iff' _ (isName_iff c)

theorem isName_a : IsName [0x61] := by decide

theorem isName_d : IsName [0x64] := by decide

theorem isName_f : IsName [0x66] := by decide

theorem isName_s : IsName [0x73] := by decide

/-- A file name as the kernel stores it. -/
structure Name where
  bytes : Bytes
  isName : IsName bytes
  deriving DecidableEq

/-- A place in a tree: the names on the way down. -/
abbrev Loc := List Name

/-- The permission bits that apply to the owner. -/
structure Mode where
  read : Bool
  write : Bool
  search : Bool
  deriving DecidableEq, Repr

/-- The size is the one reported for a directory or a special file. -/
structure Attr where
  ino : ℕ
  mode : Mode
  size : ℕ
  mtimeNs : ℤ
  ctimeNs : ℤ
  deriving DecidableEq, Repr

/-- A device may have no driver behind it. -/
inductive Special
  | fifo
  | socket
  | device (driver : Bool)
  deriving DecidableEq, Repr

inductive Node
  | file (attr : Attr) (content : Bytes)
  | dir (attr : Attr) (entries : List (Name × Node))
  | symlink (attr : Attr) (target : Bytes)
  | special (attr : Attr) (kind : Special)

/-- The format bits of `st_mode`. -/
inductive FileType
  | regular
  | directory
  | symlink
  | other
  deriving DecidableEq, Repr

/-- What `lstat` and `fstat` report. -/
structure StatResult where
  type : FileType
  ino : ℕ
  size : ℕ
  mtimeNs : ℤ
  ctimeNs : ℤ
  deriving DecidableEq, Repr

namespace Node

def attr : Node → Attr
  | file a _ | dir a _ | symlink a _ | special a _ => a

def type : Node → FileType
  | file .. => .regular
  | dir .. => .directory
  | symlink .. => .symlink
  | special .. => .other

def size : Node → ℕ
  | file _ content => content.length
  | symlink _ target => target.length
  | dir a _ | special a _ => a.size

def stat (n : Node) : StatResult := ⟨n.type,n.attr.ino,n.size,n.attr.mtimeNs,n.attr.ctimeNs⟩

def isDir (n : Node) : Bool := n.type = .directory

def entries : Node → List (Name × Node)
  | dir _ entries => entries
  | _ => []

def child (n : Node) (name : Name) : Option Node := n.entries.lookup name

def get : Node → Loc → Option Node
  | n, [] => some n
  | n, name :: p => (n.child name).bind fun c => c.get p

end Node

/-- Bind a name, in the place of its earlier binding if it has one. -/
def setEntry (name : Name) (c : Node) : List (Name × Node) → List (Name × Node)
  | [] => [(name,c)]
  | (k,d) :: es => if k = name then (name,c) :: es else (k,d) :: setEntry name c es

def eraseEntry (name : Name) (es : List (Name × Node)) : List (Name × Node) :=
  es.filter fun e => e.1 ≠ name

theorem lookup_cons_ite {κ υ : Type*} [DecidableEq κ] (k a : κ) (c : υ) (es : List (κ × υ)) :
    ((a,c) :: es).lookup k = if k = a then some c else es.lookup k := by
  rw [List.lookup_cons]
  by_cases hk : k = a
  · rw [if_pos hk,beq_iff_eq.mpr hk]
  · rw [if_neg hk,beq_false_of_ne hk]

theorem lookup_of_mem {κ υ : Type*} [DecidableEq κ] {es : List (κ × υ)}
    (h : (es.map Prod.fst).Nodup) {e : κ × υ} (he : e ∈ es) : es.lookup e.1 = some e.2 := by
  induction es with
  | nil => cases he
  | cons d es ih =>
    obtain ⟨a,c⟩ := d
    obtain ⟨ha,hn⟩ := List.nodup_cons.mp h
    rw [lookup_cons_ite]
    rcases List.mem_cons.mp he with rfl | he
    · exact if_pos rfl
    · have hne : e.1 ≠ a := fun h => ha (List.mem_map.mpr ⟨e,he,h⟩)
      rw [if_neg hne,ih hn he]

theorem lookup_setEntry (name k : Name) (c : Node) (es : List (Name × Node)) :
    (setEntry name c es).lookup k = if k = name then some c else es.lookup k := by
  induction es with
  | nil => rw [setEntry,lookup_cons_ite]
  | cons e es ih =>
    obtain ⟨a,d⟩ := e
    rw [setEntry]
    by_cases ha : a = name
    · subst a
      rw [if_pos rfl,lookup_cons_ite,lookup_cons_ite]
      by_cases hk : k = name <;> simp [hk]
    · rw [if_neg ha,lookup_cons_ite,lookup_cons_ite,ih]
      by_cases hk : k = a
      · subst k
        simp [ha]
      · simp [hk]

theorem names_setEntry {name : Name} {c : Node} {es : List (Name × Node)}
    (h : (es.lookup name).isSome) : (setEntry name c es).map Prod.fst = es.map Prod.fst := by
  induction es with
  | nil => cases h
  | cons e es ih =>
    obtain ⟨a,d⟩ := e
    rw [setEntry]
    by_cases ha : a = name
    · rw [if_pos ha,ha]
      rfl
    · rw [lookup_cons_ite,if_neg (Ne.symm ha)] at h
      rw [if_neg ha,List.map_cons,List.map_cons,ih h]

theorem setEntry_self {name : Name} {c : Node} {es : List (Name × Node)}
    (h : es.lookup name = some c) : setEntry name c es = es := by
  induction es with
  | nil => cases h
  | cons e es ih =>
    obtain ⟨a,d⟩ := e
    rw [lookup_cons_ite] at h
    rw [setEntry]
    by_cases ha : a = name
    · rw [if_pos ha.symm] at h
      rw [if_pos ha,Option.some.inj h,ha]
    · rw [if_neg (Ne.symm ha)] at h
      rw [if_neg ha,ih h]

theorem setEntry_setEntry (name : Name) (c d : Node) (es : List (Name × Node)) :
    setEntry name d (setEntry name c es) = setEntry name d es := by
  induction es with
  | nil => simp [setEntry]
  | cons e es ih =>
    obtain ⟨a,b⟩ := e
    by_cases ha : a = name
    · simp [setEntry,ha]
    · simp [setEntry,ha,ih]

theorem lookup_eraseEntry (name k : Name) (es : List (Name × Node)) :
    (eraseEntry name es).lookup k = if k = name then none else es.lookup k := by
  unfold eraseEntry
  induction es with
  | nil => simp
  | cons e es ih =>
    obtain ⟨a,d⟩ := e
    rw [lookup_cons_ite]
    by_cases ha : a = name
    · subst a
      rw [List.filter_cons_of_neg (by simp),ih]
      by_cases hk : k = name <;> simp [hk]
    · rw [List.filter_cons_of_pos (by simpa using ha),lookup_cons_ite,ih]
      by_cases hk : k = a
      · subst k
        simp [ha]
      · simp [hk]

namespace Node

/-- Rewrite the entry at a place. A place that does not exist changes nothing. -/
def modify (f : Node → Node) : Loc → Node → Node
  | [], n => f n
  | name :: p, dir a es =>
    match es.lookup name with
    | some c => dir a (setEntry name (modify f p c) es)
    | none => dir a es
  | _ :: _, n => n

@[simp] theorem get_nil (n : Node) : n.get [] = some n := rfl

theorem get_cons (n : Node) (name : Name) (p : Loc) :
    n.get (name :: p) = (n.child name).bind fun c => c.get p := rfl

theorem get_append (n : Node) (p q : Loc) : n.get (p ++ q) = (n.get p).bind fun c => c.get q := by
  induction p generalizing n with
  | nil => rfl
  | cons name p ih =>
    rw [List.cons_append,get_cons,get_cons]
    cases n.child name with
    | none => rfl
    | some c => exact ih c

@[simp] theorem modify_nil (f : Node → Node) (n : Node) : n.modify f [] = f n := rfl

theorem modify_cons_of_child {n c : Node} {name : Name} (f : Node → Node) (p : Loc)
    (h : n.child name = some c) :
    n.modify f (name :: p) = dir n.attr (setEntry name (c.modify f p) n.entries) := by
  cases n with
  | dir a es =>
    rw [child,entries] at h
    rw [modify,h]
    rfl
  | file | symlink | special => simp [child,entries] at h

theorem modify_cons_of_none {n : Node} {name : Name} (f : Node → Node) (p : Loc)
    (h : n.child name = none) : n.modify f (name :: p) = n := by
  cases n with
  | dir a es =>
    rw [child,entries] at h
    rw [modify,h]
  | file | symlink | special => rfl

theorem child_modify_ne {n : Node} {name k : Name} (f : Node → Node) (p : Loc) (hk : k ≠ name) :
    (n.modify f (name :: p)).child k = n.child k := by
  cases hc : n.child name with
  | none => rw [modify_cons_of_none f p hc]
  | some c =>
    rw [modify_cons_of_child f p hc,child,entries,lookup_setEntry,if_neg hk]
    rfl

theorem child_modify_self {n : Node} {name : Name} (f : Node → Node) (p : Loc) :
    (n.modify f (name :: p)).child name = (n.child name).map fun c => c.modify f p := by
  cases hc : n.child name with
  | none => rw [modify_cons_of_none f p hc,hc]; rfl
  | some c =>
    rw [modify_cons_of_child f p hc,child,entries,lookup_setEntry,if_pos rfl]
    rfl

/-- The rewritten entry, and everything below it. -/
theorem get_modify_append (n : Node) (f : Node → Node) (p q : Loc) :
    (n.modify f p).get (p ++ q) = (n.get p).bind fun c => (f c).get q := by
  induction p generalizing n with
  | nil => rfl
  | cons name p ih =>
    rw [List.cons_append,get_cons,get_cons,child_modify_self]
    cases n.child name with
    | none => rfl
    | some c => exact ih c

theorem get_modify_self (n : Node) (f : Node → Node) (p : Loc) :
    (n.modify f p).get p = (n.get p).map f := by
  have h := get_modify_append n f p []
  rw [List.append_nil] at h
  rw [h]
  cases n.get p <;> rfl

/-- A rewriting below an entry is a rewriting of the entry. -/
theorem modify_append (n : Node) (f : Node → Node) (p q : Loc) :
    n.modify f (p ++ q) = n.modify (fun c => c.modify f q) p := by
  induction p generalizing n with
  | nil => rfl
  | cons name p ih =>
    rw [List.cons_append]
    cases hc : n.child name with
    | none => rw [modify_cons_of_none f _ hc,modify_cons_of_none _ p hc]
    | some c => rw [modify_cons_of_child f _ hc,modify_cons_of_child _ p hc,ih]

/-- Places neither of which is below the other do not see each other's rewriting. -/
theorem get_modify_of_apart (n : Node) (f : Node → Node) {p q : Loc} (hp : ¬p <+: q)
    (hq : ¬q <+: p) : (n.modify f p).get q = n.get q := by
  induction p generalizing n q with
  | nil => exact absurd List.nil_prefix hp
  | cons a p ih =>
    cases q with
    | nil => exact absurd List.nil_prefix hq
    | cons b q =>
      rw [get_cons,get_cons]
      by_cases hab : b = a
      · subst b
        rw [List.prefix_cons_inj] at hp hq
        rw [child_modify_self]
        cases n.child a with
        | none => rfl
        | some c => exact ih c hp hq
      · rw [child_modify_ne f p hab]

/-- The entries above the rewritten one stay, with the rewriting inside. -/
theorem get_modify_above (n : Node) (f : Node → Node) (p q : Loc) :
    (n.modify f (p ++ q)).get p = (n.get p).map fun c => c.modify f q := by
  rw [modify_append,get_modify_self]

theorem attr_modify_cons (n : Node) (f : Node → Node) (name : Name) (p : Loc) :
    (n.modify f (name :: p)).attr = n.attr := by
  cases hc : n.child name with
  | none => rw [modify_cons_of_none f p hc]
  | some c =>
    rw [modify_cons_of_child f p hc]
    rfl

theorem names_modify_cons (n : Node) (f : Node → Node) (name : Name) (p : Loc) :
    (n.modify f (name :: p)).entries.map Prod.fst = n.entries.map Prod.fst := by
  cases hc : n.child name with
  | none => rw [modify_cons_of_none f p hc]
  | some c =>
    rw [modify_cons_of_child f p hc,entries,names_setEntry (by rw [← child,hc]; rfl)]

/-- Putting an entry back where it was changes nothing. -/
theorem modify_const_self {n t : Node} {p : Loc} (h : n.get p = some t) :
    n.modify (fun _ => t) p = n := by
  induction p generalizing n with
  | nil => exact (Option.some.inj h).symm
  | cons name p ih =>
    cases hc : n.child name with
    | none => rw [modify_cons_of_none _ p hc]
    | some c =>
      rw [get_cons,hc] at h
      rw [modify_cons_of_child _ p hc,ih h]
      cases n with
      | dir a es =>
        rw [entries,attr]
        exact congrArg (dir a) (setEntry_self hc)
      | file | symlink | special => simp [child,entries] at hc

theorem modify_modify (n : Node) (f g : Node → Node) (p : Loc) :
    (n.modify f p).modify g p = n.modify (fun c => g (f c)) p := by
  induction p generalizing n with
  | nil => rfl
  | cons name p ih =>
    cases hc : n.child name with
    | none => rw [modify_cons_of_none f p hc,modify_cons_of_none g p hc,modify_cons_of_none _ p hc]
    | some c =>
      have hd : (n.modify f (name :: p)).child name = some (c.modify f p) := by
        rw [child_modify_self,hc]
        rfl
      rw [modify_cons_of_child g p hd,modify_cons_of_child f p hc,modify_cons_of_child _ p hc,ih]
      rw [attr,entries,setEntry_setEntry]

end Node
end Posix
