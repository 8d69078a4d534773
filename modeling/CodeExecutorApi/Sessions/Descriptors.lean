import CodeExecutorApi.Python.Descriptors
import CodeExecutorApi.Sessions.Walks

/-! The descriptors of the file operations. A walk hands on from each directory to one in it: it
closes the first when it already holds the second, and that call is the one it cannot lose. -/
namespace CodeExecutorApi
open Python Posix Machine

/-- What the caller holds then: nothing after an exception. -/
def holding {ε α : Type} (held : α → List ℕ) : Except ε α → List ℕ
  | .ok a => held a
  | .error _ => []

/-- None of these calls fails to close a descriptor. -/
def Closing (w : World) (calls : List ℕ) : Prop := ∀ n ∈ calls, w.env.fault .close n = none

instance (w : World) (calls : List ℕ) : Decidable (Closing w calls) :=
  inferInstanceAs (Decidable (∀ n ∈ calls, _ = _))

namespace Session

/-- What `read_file` does in the directory of its file. -/
def readOpened (normalisedSubPath : Str) (fieldName : Option Str) (parentFd : ℕ) (filename : Str) :
    Api Payload := do
  let fd ← mapErrno [.eloop,.enxio,.enodev,.enotdir] .fileNotFound
    (Os.open_ filename readFlags dirMode (some parentFd))
  Program.onError
    (do
      let st ← Os.fstat fd
      if st.type = .directory then .raise (.os .isADirectory none)
      else if st.type ≠ .regular then .raise (.os .fileNotFound none)
      else pure ())
    (Os.close fd)
  CodeExecutorApi.readFile fd normalisedSubPath fieldName

/-- What `list_directory` does in the directory that holds the one it lists. -/
def listOpened (parentFd : ℕ) (filename : Str) : Api ℕ :=
  mapErrno [.eloop,.enotdir] .notADirectory (Os.open_ filename dirFlags dirMode (some parentFd))

/-- `list_directory` up to the descriptor of the directory. -/
def openDirectory (workDirectory normalisedSubPath : Str) : Api ℕ :=
  if normalisedSubPath = [] then Os.open_ workDirectory dirFlags dirMode none
  else openParent workDirectory normalisedSubPath false listOpened

/-- `list_directory` from there on. -/
def listFrom (normalisedSubPath : Str) (fd : ℕ) : Api Listing := do
  let entries ← Program.ensure
    (do
      let names ← Os.listdir fd
      statEntries fd names)
    (Os.close fd)
  return ⟨normalisedSubPath,entries.mergeSort fun a b => decide (a.name ≤ b.name)⟩

/-- How an operation stands to the calls by which it hands on: if none of them fails, it holds what
it is to hold; if one does, it raises and the balance is lost. -/
structure Settled {α : Type} (w : World) (calls : List ℕ) (held : α → List ℕ)
    (r : Except (Exc AppError) α) (v : World) : Prop where
  owes : Closing w calls → w.Owes (holding held r) v
  lost : ¬Closing w calls → (∃ e, r = .error e) ∧ ¬w.Balanced [] v

section Rules
variable {α : Type} {w v u : World} {fd : ℕ} {held : α → List ℕ} {calls : List ℕ}

theorem closing_cons (w : World) (n : ℕ) (calls : List ℕ) :
    Closing w (n::calls) ↔ w.env.fault .close n = none ∧ Closing w calls := by
  simp [Closing]

theorem Settled.cons {n : ℕ} {r : Except (Exc AppError) α} (hn : w.env.fault .close n = none)
    (h : Settled w calls held r v) : Settled w (n::calls) held r v where
  owes hclosing := h.owes ((closing_cons w n calls).mp hclosing).2
  lost hnot := h.lost fun hclosing => hnot ((closing_cons w n calls).mpr ⟨hn,hclosing⟩)

/-- The exceptions on the way out may be replaced. -/
theorem Settled.error {β : Type} {held' : β → List ℕ} {e e' : Exc AppError}
    (h : Settled w calls held (.error e) v) : Settled w calls held' (.error e') v where
  owes := h.owes
  lost hnot := ⟨⟨e',rfl⟩,(h.lost hnot).2⟩

/-- However a call of `close` ends, the descriptor is not owed any more. -/
theorem ends_close {fds : List ℕ} (h : w.Owes (fd::fds) v) :
    (Os.close fd : Api Unit).Ends v fun _ u => w.Owes fds u := by
  unfold Program.Ends
  rw [Os.close_state]
  exact h.closes (World.closes_close v fd)

end Rules

section Walk
variable {α : Type} {w v : World} {fd : ℕ} {held : α → List ℕ}

end Walk

section Operations
variable {w v : World} {fd : ℕ}

theorem listDirectory_eq (workDirectory subPath : Str) : listDirectory workDirectory subPath =
    (if strip subPath = [] then pure [] else normalize subPath) >>= fun p =>
      openDirectory workDirectory p >>= listFrom p := by
  have hopen (p : Str) : (if p = [] then Os.open_ workDirectory dirFlags dirMode none >>= listFrom p
      else openParent workDirectory p false listOpened >>= listFrom p) =
        openDirectory workDirectory p >>= listFrom p := by
    unfold openDirectory
    split_ifs <;> rfl
  unfold listDirectory
  by_cases hroot : strip subPath = []
  · rw [if_pos hroot,if_pos hroot]
    exact congrArg (fun f => (pure [] : Api Str) >>= f) (funext hopen)
  · rw [if_neg hroot,if_neg hroot]
    exact congrArg (fun f => normalize subPath >>= f) (funext hopen)

end Operations

end Session
end CodeExecutorApi
