import CodeExecutorApi.Python.Calls

/-! The rules of the calls where the directory may not be searchable, on a host where nothing fails
for a reason of its own but the storage. -/
namespace Posix

/-- A call fails for a reason the tree does not give only if it would exceed a limit on what is
stored, and no task is cancelled. -/
structure Environment.Steady (env : Environment) : Prop where
  reliable : env.Reliable
  full : ∀ call n e, env.fault call n = some e → e = .enospc ∨ e = .edquot
  interrupt : ∀ n, env.interrupt n = false

end Posix

namespace Python
open Machine Posix

namespace Os
variable {ε α : Type} {w : World} {Q : Except (Exc ε) α → World → Prop}

/-- The environment made the call fail. -/
def Faulted (call : Call) (w : World) (e : Exc ε) : Prop :=
  ∃ errno, w.env.fault call w.calls = some errno ∧ e = oserror errno

section Entry
variable {fd : ℕ} {loc : Loc} {a : Attr} {es : List (Name × Node)} {s : Str}

theorem resolving_unsearchable {f : Loc → World → Except Errno (α × World)} {b : Bytes}
    (hs : Component s) (hb : fsencode s = some b) (hfd : w.Has fd loc)
    (hdir : w.root.get loc = some (.dir a es)) (hsearch : a.mode.search = false) :
    World.resolving false (some fd) b f w = .error .enametoolong ∨
      World.resolving false (some fd) b f w = .error .eacces := by
  have hentry := namei_name w.root w.env.maxLinks loc
    ⟨b,isName_of_plain hs.toPlain hb (nul_notMem_fsencode hs hb)⟩
  rw [hdir,entryLoc] at hentry
  simp only [hsearch,if_true] at hentry
  rw [World.resolving,World.base,hfd.locOf]
  change (do let loc ← namei w.root false w.env.maxLinks loc b; f loc w) = _ ∨
    (do let loc ← namei w.root false w.env.maxLinks loc b; f loc w) = _
  rw [hentry]
  split_ifs
  · exact .inl rfl
  · exact .inr rfl

/-- A call on one entry of an open directory. It cannot look up what cannot be a name, and nothing
in a directory that is not searchable. -/
theorem ends_lookup {call : Call} {f : Loc → World → Except Errno (α × World)} (hs : Component s)
    (hfd : w.Has fd loc) (hdir : w.root.get loc = some (.dir a es))
    (hrefused : (nameOf s = none ∨ a.mode.search = false) → ∀ e v, w.Quiet v →
      (IsBadName e ∨ e = oserror .eacces) ∨ Faulted call w e → Q (.error e) v)
    (hname : ∀ c, nameOf s = some c → a.mode.search = true →
      (syscall call (f (loc ++ [c])) : Os ε α).Ends w Q) :
    (path s >>= fun p => syscall call (World.resolving false (some fd) p f) : Os ε α).Ends w Q := by
  rcases path_component hs with ⟨hb,hpath⟩ | ⟨b,hb,hpath⟩
  · rw [hpath]
    exact hrefused (.inl (nameOf_of_unencodable hb)) _ _ (.refl w) (.inl (.inl (.inl rfl)))
  · rw [hpath,Program.pure_bind]
    cases hsearch : a.mode.search with
    | false =>
      have hresolve := resolving_unsearchable (f := f) hs hb hfd hdir hsearch
      refine ends_syscall (fun e he => ?_) (fun e he => ?_) fun x v hx => ?_
      · exact hrefused (.inr hsearch) _ _ (World.quiet_tick w) (.inr ⟨e,he,rfl⟩)
      · refine hrefused (.inr hsearch) _ _ (World.quiet_tick w) (.inl ?_)
        rcases hresolve with hr | hr
        · rw [hr] at he
          cases he
          exact .inl (.inr rfl)
        · rw [hr] at he
          cases he
          exact .inr rfl
      · rcases hresolve with hr | hr <;> rw [hr] at hx <;> cases hx
    | true =>
      have hresolve := resolving_entry (f := f) hs hb hfd hdir hsearch
      cases hc : nameOf s with
      | some c =>
        rw [hc] at hresolve
        have hcall := hname c hc hsearch
        unfold Program.Ends syscall at hcall ⊢
        rwa [hresolve]
      | none =>
        rw [hc] at hresolve
        refine ends_syscall (fun e he => ?_) (fun e he => ?_) fun x v hx => ?_
        · exact hrefused (.inl hc) _ _ (World.quiet_tick w) (.inr ⟨e,he,rfl⟩)
        · rw [hresolve] at he
          cases he
          exact hrefused (.inl hc) _ _ (World.quiet_tick w) (.inl (.inl (.inr rfl)))
        · rw [hresolve] at hx
          cases hx

end Entry

theorem ends_checkpoint_steady (henv : w.env.Steady) :
    (checkpoint : Os ε Unit).Ends w fun r v => r = .ok () ∧ w.Quiet v := by
  refine ⟨?_,World.quiet_tick w⟩
  unfold checkpoint
  rw [henv.interrupt]
  rfl

/-- Without a cancellation only the operation itself counts. -/
theorem ends_awaitThread_steady {x : Os ε α} {Q : Except (Exc ε) α → World → Prop}
    (henv : w.env.Steady) (hx : ∀ v, w.Quiet v → x.Ends v fun r u => u.env = w.env ∧
      ∀ t, u.Quiet t → Q r t) : (awaitThread x).Ends w Q := by
  refine Program.Ends.bind (ends_checkpoint_steady henv) (fun _ v hv => ?_) fun e v h => by cases h.1
  refine Program.Ends.bind (hx v hv.2) (fun a u hu => ?_) fun e u hu => hu.2 u (.refl u)
  exact Program.Ends.bind (ends_checkpoint_steady (hu.1 ▸ henv)) (fun _ t ht => hu.2 t ht.2)
    fun e t h => by cases h.1

theorem ends_awaitFdopen_steady {fd : ℕ} {Q : Except (Exc ε) Unit → World → Prop}
    (henv : w.env.Steady) (hok : ∀ v, w.Quiet v → Q (.ok ()) v) :
    (awaitFdopen fd : Os ε Unit).Ends w Q := by
  refine Program.Ends.bind (ends_checkpoint_steady henv) (fun _ v hv => ?_) fun e v h => by cases h.1
  refine Program.Ends.bind (R := fun r u => r = .ok () ∧ v.Quiet u)
    (ends_fdopen (hv.2.env ▸ henv.reliable) fun u hu => ⟨rfl,hu⟩) (fun _ u hu => ?_)
    fun e u h => by cases h.1
  have hvu := hv.2.trans hu.2
  exact Program.Ends.onError (ends_checkpoint_steady (hvu.env ▸ henv))
    (fun _ t ht => hok t (hvu.trans ht.2)) fun e t h => by cases h.1

end Os
end Python
