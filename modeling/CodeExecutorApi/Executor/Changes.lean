import Mathlib.Data.List.Basic
import CodeExecutorApi.Posix.Tree
import CodeExecutorApi.Python.Str

/-! What a run did to the files of its session: the difference between the walk before it and the
walk after it, and the split of that difference over one response. -/
namespace CodeExecutorApi
open Python Posix

/-- The change-detection stamp of a regular file. -/
structure Signature where
  ino : ℕ
  size : ℕ
  mtimeNs : ℤ
  ctimeNs : ℤ
  deriving DecidableEq, Repr

def signature (entryStat : StatResult) : Signature :=
  ⟨entryStat.ino,entryStat.size,entryStat.mtimeNs,entryStat.ctimeNs⟩

/-- The part of an `ExecutionEnvironment` that `collectChanges` reads. -/
structure ExecutionEnvironment where
  inputFiles : Dict Str Signature

/-- `ExecutionEnvironment.__init__` stamps what the walk of the session yields. -/
def ExecutionEnvironment.init (walk : Dict Str StatResult) : ExecutionEnvironment :=
  ⟨walk.mapValues signature⟩

/-- The changed and the deleted files, given what the walk after the run yields. -/
def collectChanges (env : ExecutionEnvironment) (walk : Dict Str StatResult) :
    List Str × List Str :=
  let changed := walk.items.filter fun e => env.inputFiles.get e.1 ≠ some (signature e.2)
  let current := walk.keys
  (sorted (changed.map Prod.fst), sorted (env.inputFiles.keys.filter fun p => p ∉ current))

/-- How `Session.read_file` refuses: the errors `handle_execute` catches around it. -/
inductive ReadRefusal
  | osError
  | unicodeError
  deriving DecidableEq, Repr

section Split
variable {β : Type*}

/-- One attachment of a response: the sub_path and the payload opened for it. -/
structure Attachment (β : Type*) where
  subPath : Str
  payload : β

/-- The two lists the split fills. -/
structure Split (β : Type*) where
  payloads : List (Attachment β)
  omittedFiles : List Str

/-- One turn of the loop over the changed files. -/
def splitFile (readFile : Str → Except ReadRefusal β) (maxAttachments : ℕ) (s : Split β)
    (subPath : Str) : Split β :=
  if maxAttachments ≤ s.payloads.length then
    ⟨s.payloads, s.omittedFiles ++ [subPath]⟩
  else
    match readFile subPath with
    | .ok payload => ⟨s.payloads ++ [⟨subPath,payload⟩], s.omittedFiles⟩
    | .error _ => ⟨s.payloads, s.omittedFiles ++ [subPath]⟩

def splitChanged (readFile : Str → Except ReadRefusal β) (maxAttachments : ℕ)
    (changedFiles : List Str) : Split β :=
  changedFiles.foldl (splitFile readFile maxAttachments) ⟨[],[]⟩

/-- The files a response reports. -/
structure Report (β : Type*) where
  attachments : List (Attachment β)
  omittedFiles : List Str
  deletedFiles : List Str

/-- The report `handle_execute` makes after the run: the walks are those of `__init__` and of
`collect_changes`, and `readFile` is `Session.read_file`. -/
def report (readFile : Str → Except ReadRefusal β) (maxAttachments : ℕ)
    (before after : Dict Str StatResult) : Report β :=
  let changes := collectChanges (ExecutionEnvironment.init before) after
  let s := splitChanged readFile maxAttachments changes.1
  ⟨s.payloads,s.omittedFiles,changes.2⟩

/-- `Session.read_file` opens and names the file. -/
def Readable (readFile : Str → Except ReadRefusal β) (p : Str) : Bool := (readFile p).isOk

/-- `files` is split into the readable ones that fit into the free slots, and all others. -/
structure Splits (readFile : Str → Except ReadRefusal β) (slots : ℕ) (files : List Str)
    (taken : List (Attachment β)) (rest : List Str) : Prop where
  first : taken.map Attachment.subPath = (files.filter (Readable readFile)).take slots
  opened : ∀ a ∈ taken, readFile a.subPath = .ok a.payload
  others : rest.Sublist files
  perm : (taken.map Attachment.subPath ++ rest).Perm files

section Splits
variable {readFile : Str → Except ReadRefusal β} {slots : ℕ} {files : List Str} {p : Str}
  {taken : List (Attachment β)} {rest : List Str}

theorem Splits.nil : Splits readFile slots [] [] [] := ⟨by simp,by simp,.slnil,.nil⟩

/-- A file is named if no slot is free or it cannot be read. -/
theorem Splits.omit (hp : slots = 0 ∨ Readable readFile p = false)
    (h : Splits readFile slots files taken rest) :
    Splits readFile slots (p :: files) taken (p :: rest) := by
  refine ⟨?_,h.opened,h.others.cons_cons p,List.perm_middle.trans (h.perm.cons p)⟩
  rcases hp with rfl | hp
  · rw [h.first,List.take_zero,List.take_zero]
  · rw [h.first,List.filter_cons_of_neg (by simp [hp])]

theorem Splits.attach {payload : β} (hp : readFile p = .ok payload)
    (h : Splits readFile slots files taken rest) :
    Splits readFile (slots+1) (p :: files) (⟨p,payload⟩ :: taken) rest := by
  refine ⟨?_,?_,h.others.cons p,h.perm.cons p⟩
  · have hr : Readable readFile p = true := by rw [Readable,hp]; rfl
    rw [List.filter_cons_of_pos hr,List.take_succ_cons,List.map_cons,h.first]
  · intro a ha
    rcases List.mem_cons.mp ha with rfl | ha
    · exact hp
    · exact h.opened a ha

end Splits

/-- The loop fills the free slots with the readable files and names all others. -/
theorem splitFile_foldl (readFile : Str → Except ReadRefusal β) (maxAttachments : ℕ)
    (files : List Str) (s : Split β) :
    ∃ taken rest, files.foldl (splitFile readFile maxAttachments) s =
        ⟨s.payloads ++ taken,s.omittedFiles ++ rest⟩ ∧
      Splits readFile (maxAttachments - s.payloads.length) files taken rest := by
  induction files generalizing s with
  | nil => exact ⟨[],[],by simp,.nil⟩
  | cons p files ih =>
    rw [List.foldl_cons]
    obtain ⟨taken,rest,hfold,hsplit⟩ := ih (splitFile readFile maxAttachments s p)
    rw [hfold]
    by_cases hfull : maxAttachments ≤ s.payloads.length
    · rw [splitFile,if_pos hfull] at hsplit ⊢
      exact ⟨taken,p :: rest,by simp,hsplit.omit (.inl (Nat.sub_eq_zero_of_le hfull))⟩
    rw [splitFile,if_neg hfull] at hsplit ⊢
    cases hr : readFile p with
    | error e =>
      rw [hr] at hsplit
      exact ⟨taken,p :: rest,by simp,hsplit.omit (.inr (by rw [Readable,hr]; rfl))⟩
    | ok payload =>
      rw [hr] at hsplit
      -- one slot less is free for the files after `p`
      have hslots : maxAttachments - s.payloads.length =
          maxAttachments - (s.payloads ++ [Attachment.mk p payload]).length + 1 := by
        rw [List.length_append,List.length_singleton]
        omega
      rw [hslots]
      exact ⟨⟨p,payload⟩ :: taken,rest,by simp,hsplit.attach hr⟩

end Split

section Exact
variable {β : Type*} (before after : Dict Str StatResult)

/-- The file is there after the run, and its stamp is not the one from before. -/
def Changed (p : Str) : Prop :=
  ∃ st, after.get p = some st ∧ (before.get p).map signature ≠ some (signature st)

/-- The file was there before the run and is not there after it. -/
def Deleted (p : Str) : Prop := p ∈ before.keys ∧ p ∉ after.keys

theorem mem_changedFiles (p : Str) :
    p ∈ (collectChanges (ExecutionEnvironment.init before) after).1 ↔ Changed before after p := by
  simp only [collectChanges,ExecutionEnvironment.init,mem_sorted,List.mem_map,List.mem_filter,
    Dict.get_mapValues,decide_eq_true_eq,Changed,Dict.get_eq_some_iff]
  constructor
  · rintro ⟨⟨q,st⟩,⟨hmem,hne⟩,rfl⟩
    exact ⟨st,hmem,hne⟩
  · rintro ⟨st,hmem,hne⟩
    exact ⟨(p,st),⟨hmem,hne⟩,rfl⟩

theorem changedFiles_pairwise :
    (collectChanges (ExecutionEnvironment.init before) after).1.Pairwise (· < ·) := by
  apply sorted_pairwise_lt
  exact (List.filter_sublist.map Prod.fst).nodup after.nodup

theorem mem_deletedFiles (p : Str) :
    p ∈ (collectChanges (ExecutionEnvironment.init before) after).2 ↔ Deleted before after p := by
  simp only [collectChanges,ExecutionEnvironment.init,mem_sorted,List.mem_filter,
    Dict.keys_mapValues,decide_eq_true_eq,Deleted]

theorem deletedFiles_pairwise :
    (collectChanges (ExecutionEnvironment.init before) after).2.Pairwise (· < ·) := by
  apply sorted_pairwise_lt
  exact (Dict.keys_nodup _).filter _

/-- What a response reports is exactly what changed: every changed file is attached or omitted,
the attachments are the first readable ones, and every deleted file is named. -/
theorem report_exact (readFile : Str → Except ReadRefusal β) (maxAttachments : ℕ) :
    let r := report readFile maxAttachments before after
    let attached := r.attachments.map Attachment.subPath
    attached.Pairwise (· < ·) ∧ r.omittedFiles.Pairwise (· < ·) ∧
      attached.Disjoint r.omittedFiles ∧
      (∀ p, p ∈ attached ∨ p ∈ r.omittedFiles ↔ Changed before after p) ∧
      (∃ readable : List Str, readable.Pairwise (· < ·) ∧
        (∀ p, p ∈ readable ↔ Changed before after p ∧ Readable readFile p) ∧
        attached = readable.take maxAttachments) ∧
      (∀ a ∈ r.attachments, readFile a.subPath = .ok a.payload) ∧
      r.deletedFiles.Pairwise (· < ·) ∧ ∀ p, p ∈ r.deletedFiles ↔ Deleted before after p := by
  intro r attached
  obtain ⟨taken,rest,hfold,hsplit⟩ := splitFile_foldl readFile maxAttachments
    (collectChanges (ExecutionEnvironment.init before) after).1 ⟨[],[]⟩
  have hsorted := changedFiles_pairwise before after
  have hr : r = ⟨taken,rest,(collectChanges (ExecutionEnvironment.init before) after).2⟩ := by
    simp only [r,report,splitChanged]
    rw [hfold]
    rfl
  have hattached : attached = taken.map Attachment.subPath := by simp only [attached,hr]
  have hfirst : attached =
      ((collectChanges (ExecutionEnvironment.init before) after).1.filter
        (Readable readFile)).take maxAttachments := hattached.trans hsplit.first
  have hnodup : (attached ++ rest).Nodup := by
    rw [hattached,hsplit.perm.nodup_iff]
    exact hsorted.imp fun h => ne_of_lt h
  rw [hr]
  refine ⟨?_,hsorted.sublist hsplit.others,?_,?_,⟨_,hsorted.filter _,?_,hfirst⟩,hsplit.opened,
    deletedFiles_pairwise before after,mem_deletedFiles before after⟩
  · rw [hfirst]
    exact (hsorted.filter _).sublist (List.take_sublist _ _)
  · exact List.disjoint_of_nodup_append hnodup
  · intro p
    rw [← List.mem_append,hattached,hsplit.perm.mem_iff,mem_changedFiles]
  · intro p
    rw [List.mem_filter,mem_changedFiles]

end Exact
end CodeExecutorApi
