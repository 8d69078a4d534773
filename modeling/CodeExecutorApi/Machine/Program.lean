import Mathlib.Order.Defs.Unbundled

/-! Programs that read and write a state and may raise. What a program did before it raised stays
done. -/
namespace Machine

def Program (σ ε α : Type) := σ → Except ε α × σ

namespace Program
variable {σ τ ε α β : Type}

protected def pure (a : α) : Program σ ε α := fun s => (.ok a,s)

protected def bind (x : Program σ ε α) (f : α → Program σ ε β) : Program σ ε β := fun s =>
  match x s with
  | (.ok a,s') => f a s'
  | (.error e,s') => (.error e,s')

instance : Monad (Program σ ε) where
  pure := Program.pure
  bind := Program.bind

def raise (e : ε) : Program σ ε α := fun s => (.error e,s)

/-- `try: x`, and `except: h`. -/
def handle (x : Program σ ε α) (h : ε → Program σ ε α) : Program σ ε α := fun s =>
  match x s with
  | (.ok a,s') => (.ok a,s')
  | (.error e,s') => h e s'

/-- `try: x`, and `except BaseException: c; raise`. -/
def onError (x : Program σ ε α) (c : Program σ ε Unit) : Program σ ε α :=
  x.handle fun e => c.bind fun _ => raise e

/-- `try: x`, and `finally: c`. An exception of `c` replaces the one of `x`. -/
def ensure (x : Program σ ε α) (c : Program σ ε Unit) : Program σ ε α :=
  (x.onError c).bind fun a => c.bind fun _ => .pure a

/-- `try: return x`, and `finally: c`. If `c` raises, nobody gets the value of `x`. -/
def ensureOrDrop (x : Program σ ε α) (c : Program σ ε Unit) (drop : α → Program σ ε Unit) :
    Program σ ε α :=
  (x.onError c).bind fun a => (c.onError (drop a)).bind fun _ => .pure a

/-- The outcome of `x` as a value. -/
def attempt (x : Program σ ε α) : Program σ ε (Except ε α) := fun s => (.ok (x s).1,(x s).2)

/-- The same program with other exceptions. -/
def mapError {ε' : Type} (f : ε → ε') (x : Program σ ε α) : Program σ ε' α := fun s =>
  ((x s).1.mapError f,(x s).2)

theorem pure_bind (a : α) (f : α → Program σ ε β) : (pure a >>= f) = f a := rfl

theorem bind_bind {γ : Type} (x : Program σ ε α) (f : α → Program σ ε β)
    (g : β → Program σ ε γ) : (x >>= f >>= g) = x >>= fun a => f a >>= g := by
  funext s
  change (((x.bind f).bind g) : Program σ ε γ) s = (x.bind fun a => (f a).bind g) s
  simp only [Program.bind]
  rcases x s with ⟨e | a,s'⟩ <;> rfl

theorem raise_bind (e : ε) (f : α → Program σ ε β) : (raise e >>= f) = raise e := rfl

/-- Where dropping a value does nothing, only the clean-up counts. -/
theorem ensureOrDrop_eq {x : Program σ ε α} {c : Program σ ε Unit} {drop : α → Program σ ε Unit}
    (h : ∀ a, drop a = pure ()) : x.ensureOrDrop c drop = x.ensure c := by
  have hc (a : α) : c.onError (drop a) = c := by
    funext s
    rw [h]
    unfold onError handle
    rcases hcs : c s with ⟨e | u,t⟩ <;> rfl
  unfold ensureOrDrop ensure
  simp only [hc]

/-- Started in `s`, the program ends with an outcome and in a state that satisfy `Q`. -/
def Ends (x : Program σ ε α) (s : σ) (Q : Except ε α → σ → Prop) : Prop := Q (x s).1 (x s).2

section Ends
variable {s : σ} {Q Q' : Except ε α → σ → Prop}

@[simp] theorem ends_pure {a : α} : (pure a : Program σ ε α).Ends s Q ↔ Q (.ok a) s := Iff.rfl

@[simp] theorem ends_raise {e : ε} : (raise e : Program σ ε α).Ends s Q ↔ Q (.error e) s := Iff.rfl

theorem Ends.mono {x : Program σ ε α} (h : x.Ends s Q) (hq : ∀ r s', Q r s' → Q' r s') :
    x.Ends s Q' := hq _ _ h

theorem Ends.and {x : Program σ ε α} (h : x.Ends s Q) (h' : x.Ends s Q') :
    x.Ends s fun r s' => Q r s' ∧ Q' r s' := ⟨h,h'⟩

theorem ends_of_run {x : Program σ ε α} {r : Except ε α} {s' : σ} (h : x s = (r,s')) :
    x.Ends s Q ↔ Q r s' := by
  unfold Ends
  rw [h]

theorem ends_bind {x : Program σ ε β} {f : β → Program σ ε α} :
    (x >>= f).Ends s Q ↔ x.Ends s fun r s' =>
      match r with
      | .ok b => (f b).Ends s' Q
      | .error e => Q (.error e) s' := by
  change Q ((x.bind f) s).1 ((x.bind f) s).2 ↔ _
  unfold Ends Program.bind
  cases x s with
  | mk r s' => cases r <;> rfl

theorem ends_handle {x : Program σ ε α} {h : ε → Program σ ε α} :
    (x.handle h).Ends s Q ↔ x.Ends s fun r s' =>
      match r with
      | .ok a => Q (.ok a) s'
      | .error e => (h e).Ends s' Q := by
  unfold Ends handle
  cases x s with
  | mk r s' => cases r <;> rfl

theorem ends_onError {x : Program σ ε α} {c : Program σ ε Unit} :
    (x.onError c).Ends s Q ↔ x.Ends s fun r s' =>
      match r with
      | .ok a => Q (.ok a) s'
      | .error e => c.Ends s' fun r' s'' =>
        match r' with
        | .ok _ => Q (.error e) s''
        | .error e' => Q (.error e') s'' := by
  simp only [Ends,onError,handle,Program.bind]
  rcases x s with ⟨e | a,s'⟩
  · dsimp only
    rcases c s' with ⟨e' | b,s''⟩ <;> rfl
  · rfl

theorem ends_ensure {x : Program σ ε α} {c : Program σ ε Unit} :
    (x.ensure c).Ends s Q ↔ x.Ends s fun r s' => c.Ends s' fun r' s'' =>
      match r' with
      | .ok _ => Q r s''
      | .error e => Q (.error e) s'' := by
  simp only [Ends,ensure,onError,handle,Program.bind]
  rcases x s with ⟨e | a,s'⟩ <;> dsimp only <;> rcases c s' with ⟨e' | b,s''⟩ <;> rfl

theorem ends_ensureOrDrop {x : Program σ ε α} {c : Program σ ε Unit} {drop : α → Program σ ε Unit} :
    (x.ensureOrDrop c drop).Ends s Q ↔ x.Ends s fun r s' => c.Ends s' fun r' s'' =>
      match r', r with
      | .ok _, _ => Q r s''
      | .error e, .error _ => Q (.error e) s''
      | .error e, .ok a => (drop a).Ends s'' fun r'' t =>
        match r'' with
        | .ok _ => Q (.error e) t
        | .error e' => Q (.error e') t := by
  simp only [Ends,ensureOrDrop,onError,handle,Program.bind]
  rcases x s with ⟨e | a,s'⟩ <;> dsimp only <;> rcases c s' with ⟨e' | b,s''⟩ <;> try rfl
  dsimp only
  rcases drop a s'' with ⟨e'' | b,t⟩ <;> rfl

theorem ends_attempt {x : Program σ ε β} {Q : Except ε (Except ε β) → σ → Prop} :
    x.attempt.Ends s Q ↔ x.Ends s fun r s' => Q (.ok r) s' := Iff.rfl

theorem ends_mapError {ε' : Type} {f : ε → ε'} {x : Program σ ε α}
    {Q : Except ε' α → σ → Prop} :
    (x.mapError f).Ends s Q ↔ x.Ends s fun r s' => Q (r.mapError f) s' := Iff.rfl

theorem Ends.bind {x : Program σ ε β} {f : β → Program σ ε α} {R : Except ε β → σ → Prop}
    (hx : x.Ends s R) (hok : ∀ b s', R (.ok b) s' → (f b).Ends s' Q)
    (herror : ∀ e s', R (.error e) s' → Q (.error e) s') : (x >>= f).Ends s Q := by
  refine ends_bind.mpr (hx.mono fun r s' hr => ?_)
  cases r with
  | ok b => exact hok b s' hr
  | error e => exact herror e s' hr

theorem Ends.handle {x : Program σ ε α} {h : ε → Program σ ε α} {R : Except ε α → σ → Prop}
    (hx : x.Ends s R) (hok : ∀ a s', R (.ok a) s' → Q (.ok a) s')
    (herror : ∀ e s', R (.error e) s' → (h e).Ends s' Q) : (x.handle h).Ends s Q := by
  refine ends_handle.mpr (hx.mono fun r s' hr => ?_)
  cases r with
  | ok a => exact hok a s' hr
  | error e => exact herror e s' hr

/-- A clean-up that does not raise itself. -/
theorem Ends.onError {x : Program σ ε α} {c : Program σ ε Unit} {R : Except ε α → σ → Prop}
    (hx : x.Ends s R) (hok : ∀ a s', R (.ok a) s' → Q (.ok a) s')
    (herror : ∀ e s', R (.error e) s' → c.Ends s' fun r s'' => r = .ok () ∧ Q (.error e) s'') :
    (x.onError c).Ends s Q := by
  refine ends_onError.mpr (hx.mono fun r s' hr => ?_)
  cases r with
  | ok a => exact hok a s' hr
  | error e =>
    refine (herror e s' hr).mono ?_
    rintro _ s'' ⟨rfl,hq⟩
    exact hq

theorem Ends.ensure {x : Program σ ε α} {c : Program σ ε Unit} {R : Except ε α → σ → Prop}
    (hx : x.Ends s R)
    (hc : ∀ r s', R r s' → c.Ends s' fun r' s'' => r' = .ok () ∧ Q r s'') :
    (x.ensure c).Ends s Q := by
  refine ends_ensure.mpr (hx.mono fun r s' hr => (hc r s' hr).mono ?_)
  rintro _ s'' ⟨rfl,hq⟩
  exact hq

theorem Ends.ensureOrDrop {x : Program σ ε α} {c : Program σ ε Unit} {drop : α → Program σ ε Unit}
    {R : Except ε α → σ → Prop} (hx : x.Ends s R)
    (hc : ∀ r s', R r s' → c.Ends s' fun r' s'' => r' = .ok () ∧ Q r s'') :
    (x.ensureOrDrop c drop).Ends s Q := by
  refine ends_ensureOrDrop.mpr (hx.mono fun r s' hr => (hc r s' hr).mono ?_)
  rintro _ s'' ⟨rfl,hq⟩
  exact hq

end Ends

/-- Whatever the program returns satisfies `P`. -/
def Returns (x : Program σ ε α) (P : α → Prop) : Prop := ∀ s a, (x s).1 = .ok a → P a

namespace Returns
variable {P : α → Prop} {Q : β → Prop}

theorem pure {a : α} (h : P a) : (pure a : Program σ ε α).Returns P := by
  intro s b hb
  cases hb
  exact h

theorem raise (e : ε) : (raise e : Program σ ε α).Returns P := by
  intro s a ha
  cases ha

theorem trivial (x : Program σ ε α) : x.Returns fun _ => True := fun _ _ _ => True.intro

theorem bind {x : Program σ ε α} {f : α → Program σ ε β} (hx : x.Returns P)
    (hf : ∀ a, P a → (f a).Returns Q) : (x >>= f).Returns Q := by
  intro s b hb
  change ((x.bind f) s).1 = .ok b at hb
  unfold Program.bind at hb
  have hs := hx s
  rcases hxs : x s with ⟨e | a,s'⟩ <;> rw [hxs] at hb hs
  · cases hb
  · exact hf a (hs a rfl) s' b hb

theorem handle {x : Program σ ε α} {h : ε → Program σ ε α} (hx : x.Returns P)
    (hh : ∀ e, (h e).Returns P) : (x.handle h).Returns P := by
  intro s a ha
  unfold Program.handle at ha
  have hs := hx s
  rcases hxs : x s with ⟨e | b,s'⟩ <;> rw [hxs] at ha hs
  · exact hh e s' a ha
  · exact hs a ha

theorem ensureOrDrop {x : Program σ ε α} (hx : x.Returns P) (c : Program σ ε Unit)
    (drop : α → Program σ ε Unit) : (x.ensureOrDrop c drop).Returns P :=
  (hx.handle fun e => (trivial c).bind fun _ _ => raise e).bind fun a ha =>
    (trivial (c.onError (drop a))).bind fun _ _ => pure ha

end Returns

/-- Whatever the program raises satisfies `P`. -/
def Raises (x : Program σ ε α) (P : ε → Prop) : Prop := ∀ s e, (x s).1 = .error e → P e

namespace Raises
variable {P P' : ε → Prop}

theorem pure (a : α) : (pure a : Program σ ε α).Raises P := by
  intro s e he
  cases he

theorem raise {e : ε} (h : P e) : (raise e : Program σ ε α).Raises P := by
  intro s e' he
  cases he
  exact h

theorem mono {x : Program σ ε α} (h : x.Raises P) (hp : ∀ e, P e → P' e) : x.Raises P' :=
  fun s e he => hp e (h s e he)

theorem bind {x : Program σ ε α} {f : α → Program σ ε β} (hx : x.Raises P)
    (hf : ∀ a, (f a).Raises P) : (x >>= f).Raises P := by
  intro s e he
  change ((x.bind f) s).1 = .error e at he
  unfold Program.bind at he
  have hs := hx s
  rcases hxs : x s with ⟨e' | a,s'⟩ <;> rw [hxs] at he hs
  · cases he
    exact hs _ rfl
  · exact hf a s' e he

/-- The handler sees only what the program raises. -/
theorem handle_of {x : Program σ ε α} {h : ε → Program σ ε α} (hx : x.Raises P)
    (hh : ∀ e, P e → (h e).Raises P') : (x.handle h).Raises P' := by
  intro s e he
  unfold Program.handle at he
  have hs := hx s
  rcases hxs : x s with ⟨e' | a,s'⟩ <;> rw [hxs] at he hs
  · exact hh e' (hs e' rfl) s' e he
  · cases he

theorem onError {x : Program σ ε α} {c : Program σ ε Unit} (hx : x.Raises P) (hc : c.Raises P) :
    (x.onError c).Raises P := hx.handle_of fun _ he => hc.bind fun _ => raise he

theorem ensure {x : Program σ ε α} {c : Program σ ε Unit} (hx : x.Raises P) (hc : c.Raises P) :
    (x.ensure c).Raises P := (hx.onError hc).bind fun a => hc.bind fun _ => pure a

theorem mapError {ε' : Type} {f : ε → ε'} {Q : ε' → Prop} {x : Program σ ε α}
    (hx : x.Raises fun e => Q (f e)) : (x.mapError f).Raises Q := by
  intro s e he
  unfold Program.mapError at he
  have hs := hx s
  rcases hxs : (x s).1 with e' | a <;> rw [hxs] at he
  · cases he
    exact hs e' hxs
  · cases he

end Raises

theorem Returns.attempt {x : Program σ ε α} {P : ε → Prop} {Q : α → Prop} (hx : x.Raises P)
    (hr : x.Returns Q) : x.attempt.Returns fun r =>
      match r with
      | .ok a => Q a
      | .error e => P e := by
  intro s r h
  cases h
  have hs := hx s
  have hr := hr s
  cases h : (x s).1 with
  | ok a => exact hr a h
  | error e => exact hs e h

theorem Raises.attempt (x : Program σ ε α) (P : ε → Prop) : x.attempt.Raises P := by
  intro s e he
  cases he

/-- What follows may rely on what is returned. -/
theorem Raises.bind_of {x : Program σ ε α} {f : α → Program σ ε β} {P : ε → Prop} {Q : α → Prop}
    (hx : x.Raises P) (hr : x.Returns Q) (hf : ∀ a, Q a → (f a).Raises P) : (x >>= f).Raises P := by
  intro s e he
  change ((x.bind f) s).1 = .error e at he
  unfold Program.bind at he
  have hs := hx s
  have hr := hr s
  rcases hxs : x s with ⟨e' | a,s'⟩ <;> rw [hxs] at he hs hr
  · cases he
    exact hs _ rfl
  · exact hf a (hr a rfl) s' e he

theorem bind_run {x : Program σ ε α} {f : α → Program σ ε β} {s s' : σ} {a : α}
    (h : x s = (.ok a,s')) : (x >>= f) s = f a s' := by
  change (x.bind f) s = _
  unfold Program.bind
  rw [h]

theorem bind_run_error {x : Program σ ε α} {f : α → Program σ ε β} {s s' : σ} {e : ε}
    (h : x s = (.error e,s')) : (x >>= f) s = (.error e,s') := by
  change (x.bind f) s = _
  unfold Program.bind
  rw [h]

theorem handle_run_error {x : Program σ ε α} {h : ε → Program σ ε α} {s s' : σ} {e : ε}
    (hx : x s = (.error e,s')) : (x.handle h) s = h e s' := by
  unfold handle
  rw [hx]

/-- A clean-up after an exception never ends well. -/
theorem onError_run_ok {x : Program σ ε α} {c : Program σ ε Unit} {s s' : σ} {a : α} :
    x.onError c s = (.ok a,s') ↔ x s = (.ok a,s') := by
  unfold onError handle
  rcases x s with ⟨e | b,t⟩
  · refine iff_of_false ?_ (by simp)
    dsimp only
    unfold Program.bind
    rcases c t with ⟨e' | u,t'⟩ <;> simp [raise]
  · rfl

/-- The body succeeds, and the clean-up fails. -/
theorem ensure_run_error {x : Program σ ε α} {c : Program σ ε Unit} {s s' s'' : σ} {a : α} {e : ε}
    (hx : x s = (.ok a,s')) (hc : c s' = (.error e,s'')) : (x.ensure c) s = (.error e,s'') := by
  have hbody : x.onError c s = (.ok a,s') := by
    unfold onError handle
    rw [hx]
  exact (bind_run (f := fun a => c.bind fun _ => .pure a) hbody).trans (bind_run_error hc)

theorem bind_error_iff {x : Program σ ε α} {f : α → Program σ ε β} {s : σ} {e : ε} :
    ((x >>= f) s).1 = .error e ↔
      (x s).1 = .error e ∨ ∃ a s', x s = (.ok a,s') ∧ (f a s').1 = .error e := by
  change ((x.bind f) s).1 = .error e ↔ _
  unfold Program.bind
  rcases x s with ⟨e' | a,s'⟩ <;> simp [and_assoc]

theorem bind_ok_iff {x : Program σ ε α} {f : α → Program σ ε β} {s : σ} {b : β} :
    ((x >>= f) s).1 = .ok b ↔ ∃ a s', x s = (.ok a,s') ∧ (f a s').1 = .ok b := by
  change ((x.bind f) s).1 = .ok b ↔ _
  unfold Program.bind
  rcases x s with ⟨e' | a,s'⟩ <;> simp [and_assoc]

/-- A rule about `x` in `s` may use that it is the run of `x` in `s` that it speaks of. -/
theorem Ends.run {x : Program σ ε α} {s : σ} {Q : Except ε α → σ → Prop} (h : x.Ends s Q) :
    x.Ends s fun r s' => x s = (r,s') ∧ Q r s' := ⟨rfl,h⟩

/-- However the program ends, it moves the state along `R`. -/
def Within (R : σ → σ → Prop) (x : Program σ ε α) : Prop := ∀ s, R s (x s).2

theorem Ends.within {R : σ → σ → Prop} {x : Program σ ε α} {s : σ} {Q : Except ε α → σ → Prop}
    (h : x.Ends s Q) (hx : Within R x) : x.Ends s fun r s' => R s s' ∧ Q r s' := ⟨hx s,h⟩

namespace Within
variable {R : σ → σ → Prop} [Std.Refl R] [IsTrans σ R]

omit [IsTrans σ R] in
theorem pure (a : α) : Within R (pure a : Program σ ε α) := fun s => Std.Refl.refl s

omit [IsTrans σ R] in
theorem raise (e : ε) : Within R (Program.raise e : Program σ ε α) := fun s => Std.Refl.refl s

omit [Std.Refl R] in
theorem bind {x : Program σ ε α} {f : α → Program σ ε β} (hx : Within R x)
    (hf : ∀ a, Within R (f a)) : Within R (x >>= f) := by
  intro s
  have hs := hx s
  change R s ((x.bind f) s).2
  unfold Program.bind
  rcases hxs : x s with ⟨e | a,s'⟩ <;> rw [hxs] at hs
  · exact hs
  · exact IsTrans.trans _ _ _ hs (hf a s')

omit [Std.Refl R] in
theorem handle {x : Program σ ε α} {h : ε → Program σ ε α} (hx : Within R x)
    (hh : ∀ e, Within R (h e)) : Within R (x.handle h) := by
  intro s
  have hs := hx s
  unfold Program.handle
  rcases hxs : x s with ⟨e | a,s'⟩ <;> rw [hxs] at hs
  · exact IsTrans.trans _ _ _ hs (hh e s')
  · exact hs

theorem onError {x : Program σ ε α} {c : Program σ ε Unit} (hx : Within R x) (hc : Within R c) :
    Within R (x.onError c) := hx.handle fun e => hc.bind fun _ => raise e

theorem ensure {x : Program σ ε α} {c : Program σ ε Unit} (hx : Within R x) (hc : Within R c) :
    Within R (x.ensure c) := (hx.onError hc).bind fun a => hc.bind fun _ => pure a

theorem ensureOrDrop {x : Program σ ε α} {c : Program σ ε Unit} {drop : α → Program σ ε Unit}
    (hx : Within R x) (hc : Within R c) (hdrop : ∀ a, Within R (drop a)) :
    Within R (x.ensureOrDrop c drop) :=
  (hx.onError hc).bind fun a => (hc.onError (hdrop a)).bind fun _ => pure a

end Within

/-- Seen through `f`, the program `x` does on the states of `σ` what `y` does on those of `τ`. -/
def Simulates (f : τ → σ) (x : Program σ ε α) (y : Program τ ε α) : Prop :=
  ∀ t, x (f t) = ((y t).1,f (y t).2)

namespace Simulates
variable {f : τ → σ}

theorem pure (a : α) : Simulates f (pure a : Program σ ε α) (pure a) := fun _ => rfl

theorem raise (e : ε) : Simulates f (raise e : Program σ ε α) (Program.raise e) := fun _ => rfl

/-- The second program may rely on what the first one returns. -/
theorem bind_of {x : Program σ ε α} {y : Program τ ε α} {g : α → Program σ ε β}
    {h : α → Program τ ε β} {P : α → Prop} (hx : Simulates f x y) (hy : y.Returns P)
    (hg : ∀ a, P a → Simulates f (g a) (h a)) : Simulates f (x >>= g) (y >>= h) := by
  intro t
  change (x.bind g) (f t) = (((y.bind h) t).1,f ((y.bind h) t).2)
  rw [Program.bind,Program.bind,hx t]
  rcases hyt : y t with ⟨e | a,t'⟩
  · rfl
  · exact hg a (hy t a (by rw [hyt])) t'

theorem bind {x : Program σ ε α} {y : Program τ ε α} {g : α → Program σ ε β}
    {h : α → Program τ ε β} (hx : Simulates f x y) (hg : ∀ a, Simulates f (g a) (h a)) :
    Simulates f (x >>= g) (y >>= h) := hx.bind_of (Returns.trivial y) fun a _ => hg a

theorem handle {x : Program σ ε α} {y : Program τ ε α} {g : ε → Program σ ε α}
    {h : ε → Program τ ε α} (hx : Simulates f x y) (hg : ∀ e, Simulates f (g e) (h e)) :
    Simulates f (x.handle g) (y.handle h) := by
  intro t
  rw [Program.handle,Program.handle,hx t]
  cases y t with
  | mk r t' =>
    cases r with
    | ok a => rfl
    | error e => exact hg e t'

theorem onError {x : Program σ ε α} {y : Program τ ε α} {c : Program σ ε Unit}
    {d : Program τ ε Unit} (hx : Simulates f x y) (hc : Simulates f c d) :
    Simulates f (x.onError c) (y.onError d) :=
  hx.handle fun e => hc.bind fun _ => raise e

theorem ensure {x : Program σ ε α} {y : Program τ ε α} {c : Program σ ε Unit}
    {d : Program τ ε Unit} (hx : Simulates f x y) (hc : Simulates f c d) :
    Simulates f (x.ensure c) (y.ensure d) :=
  (hx.onError hc).bind fun a => hc.bind fun _ => pure a

theorem ensureOrDrop {x : Program σ ε α} {y : Program τ ε α} {c : Program σ ε Unit}
    {d : Program τ ε Unit} {drop : α → Program σ ε Unit} {drop' : α → Program τ ε Unit}
    (hx : Simulates f x y) (hc : Simulates f c d) (hdrop : ∀ a, Simulates f (drop a) (drop' a)) :
    Simulates f (x.ensureOrDrop c drop) (y.ensureOrDrop d drop') :=
  (hx.onError hc).bind fun a => (hc.onError (hdrop a)).bind fun _ => pure a

end Simulates
end Program
end Machine
