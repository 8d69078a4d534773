import Mathlib.Data.List.Perm.Basic
import CodeExecutorApi.Python.Later

/-! What a program has opened and not closed. Every call of `close` counts, also one that fails: the
descriptor is gone then as well. -/
namespace Posix
namespace World

/-- Calls were made that opened and closed nothing. -/
structure Idle (w v : World) : Prop where
  env : v.env = w.env
  fds : v.fds = w.fds
  nextFd : v.nextFd = w.nextFd
  closed : v.closed = w.closed

/-- `fd` was opened. -/
structure Opens (w : World) (fd : ℕ) (v : World) : Prop where
  env : v.env = w.env
  fresh : fd = w.nextFd
  fds : ∃ loc, v.fds = (fd,loc)::w.fds
  nextFd : v.nextFd = w.nextFd + 1
  closed : v.closed = w.closed

/-- `close` was called with `fd`. -/
structure Closes (w : World) (fd : ℕ) (v : World) : Prop where
  env : v.env = w.env
  fds : v.fds = w.fds.filter fun e => e.1 ≠ fd
  nextFd : v.nextFd = w.nextFd
  closed : v.closed = fd::w.closed

/-- Since `w` each descriptor that was opened has been closed exactly once, except for those held,
which have not been closed. -/
def Balanced (w : World) (held : List ℕ) (v : World) : Prop :=
  ∃ closed, v.closed = closed ++ w.closed ∧
    (held ++ closed).Perm (List.range' w.nextFd (v.nextFd - w.nextFd))

/-- The same, and those held are open. -/
structure Owes (w : World) (held : List ℕ) (v : World) : Prop where
  env : v.env = w.env
  nextFd : w.nextFd ≤ v.nextFd
  balanced : w.Balanced held v
  live : ∀ fd ∈ held, (v.fds.lookup fd).isSome = true

variable {w v u x : World} {fd : ℕ} {held held' : List ℕ}

theorem closes_close (w : World) (fd : ℕ) : w.Closes fd (w.close fd).tick := ⟨rfl,rfl,rfl,rfl⟩

theorem Idle.trans (h : w.Idle v) (h' : v.Idle u) : w.Idle u :=
  ⟨h'.env.trans h.env,h'.fds.trans h.fds,h'.nextFd.trans h.nextFd,h'.closed.trans h.closed⟩

instance : Std.Refl Idle := ⟨fun _ => ⟨rfl,rfl,rfl,rfl⟩⟩

instance : IsTrans World Idle := ⟨fun _ _ _ => .trans⟩

theorem Idle.opens (h : w.Idle v) (h' : v.Opens fd u) : w.Opens fd u where
  env := h'.env.trans h.env
  fresh := h'.fresh.trans h.nextFd
  fds := h.fds ▸ h'.fds
  nextFd := h'.nextFd.trans (by rw [h.nextFd])
  closed := h'.closed.trans h.closed

theorem Opens.idle (h : w.Opens fd v) (h' : v.Idle u) : w.Opens fd u where
  env := h'.env.trans h.env
  fresh := h.fresh
  fds := h'.fds ▸ h.fds
  nextFd := h'.nextFd.trans h.nextFd
  closed := h'.closed.trans h.closed

theorem Owes.refl (w : World) : w.Owes [] w where
  env := rfl
  nextFd := le_rfl
  balanced := ⟨[],rfl,by simp⟩
  live := by simp

theorem Owes.idle (h : w.Owes held v) (h' : v.Idle u) : w.Owes held u where
  env := h'.env.trans h.env
  nextFd := h'.nextFd ▸ h.nextFd
  balanced := by
    unfold Balanced
    rw [h'.closed,h'.nextFd]
    exact h.balanced
  live := h'.fds ▸ h.live

theorem Owes.perm (h : w.Owes held v) (hp : held.Perm held') : w.Owes held' v where
  env := h.env
  nextFd := h.nextFd
  balanced := by
    obtain ⟨closed,hclosed,hperm⟩ := h.balanced
    exact ⟨closed,hclosed,(hp.symm.append_right closed).trans hperm⟩
  live fd hfd := h.live fd (hp.mem_iff.mpr hfd)

/-- A descriptor that is held was opened since. -/
theorem Owes.lt (h : w.Owes held v) (hfd : fd ∈ held) : fd < v.nextFd := by
  obtain ⟨closed,-,hperm⟩ := h.balanced
  have hrange := hperm.mem_iff.mp (List.mem_append_left closed hfd)
  have hle := h.nextFd
  rw [List.mem_range'_1] at hrange
  omega

theorem Owes.opens (h : w.Owes held v) (h' : v.Opens fd u) : w.Owes (fd::held) u where
  env := h'.env.trans h.env
  nextFd := by
    have hle := h.nextFd
    have hnext := h'.nextFd
    omega
  balanced := by
    obtain ⟨closed,hclosed,hperm⟩ := h.balanced
    refine ⟨closed,h'.closed.trans hclosed,?_⟩
    have hle := h.nextFd
    have hcount : u.nextFd - w.nextFd = (v.nextFd - w.nextFd) + 1 := by
      have hnext := h'.nextFd
      omega
    have hlast : fd = w.nextFd + 1 * (v.nextFd - w.nextFd) := by
      have hfresh := h'.fresh
      omega
    rw [hcount,List.range'_concat,← hlast]
    exact (hperm.cons fd).trans (List.perm_append_singleton _ _).symm
  live r hr := by
    obtain ⟨loc,hfds⟩ := h'.fds
    rw [hfds]
    cases List.mem_cons.mp hr with
    | inl he => rw [he,List.lookup_cons_self]; rfl
    | inr hheld =>
      have hne : r ≠ fd := by
        have hlt := h.lt hheld
        have hfresh := h'.fresh
        omega
      rw [lookup_cons_ite,if_neg hne]
      exact h.live r hheld

theorem Owes.closes (h : w.Owes (fd::held) v) (h' : v.Closes fd u) : w.Owes held u where
  env := h'.env.trans h.env
  nextFd := h'.nextFd ▸ h.nextFd
  balanced := by
    obtain ⟨closed,hclosed,hperm⟩ := h.balanced
    refine ⟨fd::closed,by rw [h'.closed,hclosed]; rfl,?_⟩
    rw [h'.nextFd]
    exact List.perm_middle.trans hperm
  live r hr := by
    obtain ⟨closed,-,hperm⟩ := h.balanced
    have hnodup : (fd::held ++ closed).Nodup := hperm.nodup_iff.mpr List.nodup_range'
    have hne : r ≠ fd := by
      rintro rfl
      exact (List.nodup_cons.mp hnodup).1 (List.mem_append_left _ hr)
    rw [h'.fds]
    exact (lookup_close v hne).symm ▸ h.live r (List.mem_cons_of_mem _ hr)

/-- What is held is determined. -/
theorem Balanced.unique (h : w.Balanced held v) (h' : w.Balanced held' v) : held.Perm held' := by
  obtain ⟨closed,hclosed,hperm⟩ := h
  obtain ⟨closed',hclosed',hperm'⟩ := h'
  have he : closed = closed' := List.append_cancel_right (hclosed.symm.trans hclosed')
  subst he
  exact (List.perm_append_right_iff closed).mp (hperm.trans hperm'.symm)

end World
end Posix

namespace Python
open Machine Posix

namespace Os
variable {ε α : Type} {w : World} {fd : ℕ}

theorem close_state (fd : ℕ) (w : World) : ((close fd : Os ε Unit) w).2 = (w.close fd).tick := by
  unfold close
  split <;> rfl

end Os
end Python
