import CodeExecutorApi.Machine.Program
import Mathlib.Data.List.Basic

/-! Readers, which hand out a list in chunks, and loops that take in chunks up to a limit. -/
namespace Machine

/-- What hands out a list chunk by chunk and says when it is at its end. -/
structure Reader (ε α : Type) where
  State : Type
  read : ℕ → State → Except ε (List α) × State
  atEof : State → Bool

namespace Reader
variable {ε α : Type} (r : Reader ε α) (n : ℕ)

/-- The chunks that reads of a state on give. An empty one is the end. -/
inductive Gives : r.State → List (List α) → Prop
  | last {s s'} (read : r.read n s = (.ok [],s')) : Gives s []
  | chunk {s s' c cs} (read : r.read n s = (.ok c,s')) (nonempty : c ≠ []) (rest : Gives s' cs) :
      Gives s (c :: cs)

/-- The results of the reads of a loop that asks `atEof` before each and stops after an empty chunk. -/
inductive Reads : r.State → List (Except ε (List α)) → Prop
  | eof {s} (eof : r.atEof s = true) : Reads s []
  | last {s s'} (more : r.atEof s = false) (read : r.read n s = (.ok [],s')) : Reads s [.ok []]
  | error {s s' e} (more : r.atEof s = false) (read : r.read n s = (.error e,s')) :
      Reads s [.error e]
  | chunk {s s' c cs} (more : r.atEof s = false) (read : r.read n s = (.ok c,s'))
      (nonempty : c ≠ []) (rest : Reads s' cs) : Reads s (.ok c :: cs)

/-- Those of the chunks that are read before `atEof` holds. -/
def taken : r.State → List (List α) → List (List α)
  | _, [] => []
  | s, c :: cs => if r.atEof s then [] else c :: taken (r.read n s).2 cs

/-- `atEof` does not hold while a chunk is left. -/
def Timely : r.State → List (List α) → Prop
  | _, [] => True
  | s, _ :: cs => r.atEof s = false ∧ Timely (r.read n s).2 cs

variable {r n} {s : r.State} {cs : List (List α)}

theorem Reads.cons {c : List α} {reads : List (Except ε (List α))}
    (h : r.Reads n s (.ok c :: reads)) (hc : c ≠ []) :
    r.atEof s = false ∧ ∃ s', r.read n s = (.ok c,s') ∧ r.Reads n s' reads := by
  cases h with
  | last => exact absurd rfl hc
  | chunk more read _ rest => exact ⟨more,_,read,rest⟩

theorem Gives.nonempty (h : r.Gives n s cs) : ∀ c ∈ cs, c ≠ [] := by
  induction h with
  | last => exact nofun
  | chunk _ hc _ ih => exact List.forall_mem_cons.mpr ⟨hc,ih⟩

theorem taken_prefix : r.taken n s cs <+: cs := by
  induction cs generalizing s with
  | nil => exact List.prefix_rfl
  | cons c cs ih =>
    rw [taken]
    split_ifs
    · exact List.nil_prefix
    · exact (List.prefix_cons_inj c).mpr ih

theorem taken_eq_iff : r.taken n s cs = cs ↔ r.Timely n s cs := by
  induction cs generalizing s with
  | nil => exact ⟨fun _ => trivial,fun _ => rfl⟩
  | cons c cs ih =>
    rw [taken,Timely,← ih]
    split_ifs with heof
    · simp [heof]
    · simp [heof]

/-- Nothing of the list is lost exactly if `atEof` is timely. -/
theorem Gives.flatten_taken (h : r.Gives n s cs) :
    (r.taken n s cs).flatten = cs.flatten ↔ r.Timely n s cs := by
  rw [← taken_eq_iff]
  refine ⟨fun hflat => ?_,fun heq => by rw [heq]⟩
  obtain ⟨left,hleft⟩ : r.taken n s cs <+: cs := taken_prefix
  have hnil : left.flatten = [] := by
    have hlen := congrArg List.length hflat
    rw [← List.length_eq_zero_iff]
    conv_rhs at hlen => rw [← hleft,List.flatten_append,List.length_append]
    omega
  cases left with
  | nil => rwa [List.append_nil] at hleft
  | cons c left =>
    refine absurd (List.flatten_eq_nil_iff.mp hnil c List.mem_cons_self) (h.nonempty c ?_)
    rw [← hleft]
    simp

/-- A loop reads the chunks that are taken, and then perhaps the empty one. -/
theorem Gives.reads (h : r.Gives n s cs) : ∃ tail, (tail = [] ∨ tail = [.ok []]) ∧
    r.Reads n s ((r.taken n s cs).map .ok ++ tail) := by
  induction h with
  | @last s s' read =>
    cases heof : r.atEof s with
    | true => exact ⟨[],.inl rfl,.eof heof⟩
    | false => exact ⟨[.ok []],.inr rfl,.last heof read⟩
  | @chunk s s' c cs read hc _ ih =>
    rw [taken,read]
    cases heof : r.atEof s with
    | true => exact ⟨[],.inl rfl,.eof heof⟩
    | false =>
      obtain ⟨tail,htail,hreads⟩ := ih
      exact ⟨tail,htail,.chunk heof read hc hreads⟩

/-- The reader of a list of chunks, with any idea of where the end is. -/
def ofChunks (ε : Type) (eof : List (List α) → Bool) : Reader ε α where
  State := List (List α)
  read _ s := (.ok (s.head?.getD []),s.tail)
  atEof := eof

theorem gives_ofChunks (eof : List (List α) → Bool) (h : ∀ c ∈ cs, c ≠ []) :
    (ofChunks ε eof).Gives n cs cs := by
  induction cs with
  | nil => exact .last rfl
  | cons c cs ih =>
    exact .chunk rfl (h c List.mem_cons_self) (ih fun c hc => h c (List.mem_cons_of_mem _ hc))

end Reader

section Intake
variable {α : Type} {limit : ℕ} {out : List α} {cs : List (List α)}

/-- Take in chunk after chunk, each as a whole, and never more than the limit. What was taken in, and
whether that is all. -/
def intake (limit : ℕ) : List α → List (List α) → List α × Bool
  | out, [] => (out,true)
  | out, c :: cs =>
    if limit < out.length + c.length then (out,false) else intake limit (out ++ c) cs

theorem intake_prefix : (intake limit out cs).1 <+: out ++ cs.flatten := by
  induction cs generalizing out with
  | nil => exact List.prefix_append out []
  | cons c cs ih =>
    rw [intake]
    split_ifs
    · exact List.prefix_append _ _
    · rw [List.flatten_cons,← List.append_assoc]
      exact ih

theorem prefix_intake : out <+: (intake limit out cs).1 := by
  induction cs generalizing out with
  | nil => exact List.prefix_rfl
  | cons c cs ih =>
    rw [intake]
    split_ifs
    · exact List.prefix_rfl
    · exact (List.prefix_append out c).trans ih

theorem intake_length (h : out.length ≤ limit) : (intake limit out cs).1.length ≤ limit := by
  induction cs generalizing out with
  | nil => exact h
  | cons c cs ih =>
    rw [intake]
    split_ifs with hlimit
    · exact h
    · refine ih ?_
      rw [List.length_append]
      omega

/-- The verdict does not depend on the cuts between the chunks. -/
theorem intake_iff (h : out.length ≤ limit) :
    (intake limit out cs).2 = true ↔ (out ++ cs.flatten).length ≤ limit := by
  induction cs generalizing out with
  | nil => simpa [intake] using h
  | cons c cs ih =>
    rw [intake]
    split_ifs with hlimit
    · simp only [List.flatten_cons,List.length_append,false_iff]
      omega
    · rw [ih (by rw [List.length_append]; omega),List.flatten_cons,List.append_assoc]

theorem intake_all (h : (intake limit out cs).2 = true) :
    (intake limit out cs).1 = out ++ cs.flatten := by
  induction cs generalizing out with
  | nil => rw [intake,List.flatten_nil,List.append_nil]
  | cons c cs ih =>
    rw [intake] at h ⊢
    split_ifs at h ⊢
    rw [ih h,List.flatten_cons,List.append_assoc]

end Intake

namespace Program
variable {σ τ ε α : Type}

/-- A program that does not look at a second part of the state. -/
def beside (x : Program σ ε α) : Program (σ × τ) ε α := fun s => ((x s.1).1,(x s.1).2,s.2)

theorem ends_beside {x : Program σ ε α} {s : σ} {t : τ} {Q : Except ε α → σ × τ → Prop} :
    x.beside.Ends (s,t) Q ↔ x.Ends s fun r s' => Q r (s',t) := Iff.rfl

end Program
end Machine
