import CodeExecutorApi.Sessions.Footprint
import CodeExecutorApi.Sessions.Reading

/-! Reading a file whatever fails on the way: what is returned stands for a regular file, and so it
does as long as only further files are read. -/
namespace CodeExecutorApi
open Python Posix Machine

namespace Session

/-- The descriptor stands for a regular file. -/
def Regular (w : World) (fd : ℕ) : Prop := ∃ a content, w.nodeOf fd = .ok (.file a content)

section Rules
variable {w v u : World} {fd : ℕ}

theorem nodeOf_congr (hroot : v.root = w.root) (hloc : v.locOf fd = w.locOf fd) :
    v.nodeOf fd = w.nodeOf fd := by
  unfold World.nodeOf
  rw [hloc,hroot]

theorem Regular.congr (h : Regular w fd) (hroot : v.root = w.root)
    (hloc : v.locOf fd = w.locOf fd) : Regular v fd := by
  obtain ⟨a,content,hn⟩ := h
  exact ⟨a,content,(nodeOf_congr hroot hloc).trans hn⟩

theorem Regular.still (h : Regular w fd) (hv : Still w v) (hfd : fd < w.nextFd) : Regular v fd :=
  h.congr hv.root (hv.keeps.locOf fd hfd)

theorem Regular.quiet (h : Regular w fd) (hv : w.Quiet v) : Regular v fd :=
  h.congr hv.root (by rw [World.locOf,World.locOf,hv.fds])

theorem Still.refl (w : World) : Still w w := ⟨rfl,.refl _ w⟩

theorem Still.trans (h : Still w v) (h' : Still v u) : Still w u :=
  ⟨h'.root.trans h.root,h.keeps.step h'.keeps⟩

theorem syscall_quiet {α : Type} {call : Call} {f : World → Except Errno (α × World)}
    (hf : ∀ w a v, f w = .ok (a,v) → v = w) : (Os.syscall call f : Api α).Within World.Quiet := by
  intro w
  refine Os.ends_syscall (Q := fun _ v => w.Quiet v) ?_ ?_ fun a v h => ?_
  · exact fun _ _ => World.quiet_tick w
  · exact fun _ _ => World.quiet_tick w
  · rw [hf w a v h]
    exact World.quiet_tick w

/-- An `open` that makes nothing. -/
theorem ends_open_still {flags : Flags} (hcreate : flags.create = false) (s : Str) (mode : Mode)
    (dirFd : Option ℕ) (w : World) : (Os.open_ s flags mode dirFd : Api ℕ).Ends w fun r v =>
      Still w v ∧ ∀ fd, r = .ok fd → fd = w.nextFd ∧ v.nextFd = w.nextFd + 1 := by
  refine Program.Ends.bind (R := fun _ v => v = w) ?_ ?_ ?_
  · unfold Os.path
    split
    · rfl
    · split_ifs <;> rfl
  · rintro path v rfl
    refine Os.ends_syscall ?_ ?_ fun fd u h => ?_
    · exact fun _ _ => ⟨(Still.refl v).of_quiet (World.quiet_tick v),fun _ hr => by cases hr⟩
    · exact fun _ _ => ⟨(Still.refl v).of_quiet (World.quiet_tick v),fun _ hr => by cases hr⟩
    obtain ⟨loc,hopen⟩ := World.resolving_ok h
    have halloc : (fd,u) = v.alloc loc := by
      unfold World.openLoc at hopen
      split at hopen
      · split_ifs at hopen
        cases ho : World.openNode _ flags with
        | error e =>
          rw [ho] at hopen
          cases hopen
        | ok =>
          rw [ho] at hopen
          cases hopen
          rfl
      · rw [hcreate] at hopen
        cases hopen
    cases halloc
    refine ⟨⟨rfl,(World.opened_alloc v loc).keeps⟩,fun _ hr => ?_⟩
    cases hr
    exact ⟨rfl,rfl⟩
  · rintro e v rfl
    exact ⟨.refl v,fun _ hr => by cases hr⟩

theorem ends_mapErrno_still {flags : Flags} (hcreate : flags.create = false) (errnos : List Errno)
    (cls : OSErrorClass) (s : Str) (mode : Mode) (dirFd : Option ℕ) (w : World) :
    (mapErrno errnos cls (Os.open_ s flags mode dirFd)).Ends w fun r v =>
      Still w v ∧ ∀ fd, r = .ok fd → fd = w.nextFd ∧ v.nextFd = w.nextFd + 1 := by
  refine Program.Ends.handle (ends_open_still hcreate s mode dirFd w) (fun fd v hv => hv)
    fun e v hv => ?_
  split
  · split_ifs <;> exact ⟨hv.1,fun _ hr => by cases hr⟩
  · exact ⟨hv.1,fun _ hr => by cases hr⟩

theorem ends_close_closed (fd : ℕ) (w : World) :
    (Os.close fd : Api Unit).Ends w fun _ v => w.Closed fd v := by
  unfold Program.Ends
  rw [Os.close_state]
  exact World.closed_close w fd

end Rules

section Walk
variable {w v : World}

/-- What the walk for a payload comes to from `w` on: it changes nothing, and a payload it returns
is an open file, with a descriptor newer than any in `w`. -/
def Opened (w : World) (r : Except (Exc AppError) Payload) (v : World) : Prop :=
  Still w v ∧ ∀ payload, r = .ok payload →
    w.nextFd ≤ payload.fd ∧ payload.fd < v.nextFd ∧ Regular v payload.fd

theorem opened_error {e : Exc AppError} (h : Still w v) : Opened w (.error e) v :=
  ⟨h,fun _ hr => by cases hr⟩

/-- What was opened later stays open when an older descriptor is closed. -/
theorem Opened.closed {u : World} {fd : ℕ} {r : Except (Exc AppError) Payload} (h : Opened w r v)
    (hfd : w.nextFd ≤ fd) (hnewer : ∀ payload, r = .ok payload → fd ≠ payload.fd)
    (hu : v.Closed fd u) : Opened w r u := by
  refine ⟨h.1.of_closed hfd hu,fun payload hr => ?_⟩
  obtain ⟨hle,hlt,hregular⟩ := h.2 payload hr
  exact ⟨hle,hu.nextFd ▸ hlt,hregular.congr hu.root (hu.locOf _ (hnewer payload hr).symm)⟩

theorem ends_openParts_opened {body : ℕ → Api Payload} (hbody : ∀ fd v, Still w v →
      w.nextFd ≤ fd → fd < v.nextFd → (body fd).Ends v fun r u => Opened w r u ∧
        ∀ payload, r = .ok payload → fd ≠ payload.fd)
    {fd : ℕ} (pathParts : List Str) (hv : Still w v) (hle : w.nextFd ≤ fd) (hlt : fd < v.nextFd) :
    (openParts false body fd pathParts).Ends v (Opened w) := by
  induction pathParts generalizing fd v with
  | nil =>
    refine Program.ends_ensureOrDrop.mpr ((hbody fd v hv hle hlt).mono fun r u hu => ?_)
    refine (ends_close_closed fd u).mono fun r' x hx => ?_
    have hopened := hu.1.closed hle hu.2 hx
    cases r' with
    | ok => exact hopened
    | error e =>
      cases r with
      | error e' => exact opened_error hopened.1
      | ok payload =>
        -- The file object of the payload goes with it.
        have hstill := hopened.1.of_closed (hopened.2 payload rfl).1 (x.closed_close payload.fd)
        exact opened_error hstill
  | cons pathPart pathParts ih =>
    refine Program.Ends.bind (R := fun r u => Still w u ∧ ∀ next, r = .ok next →
      w.nextFd ≤ next ∧ next < u.nextFd) ?_ ?_ fun e u hu => opened_error hu.1
    · have hpart : (openPart false fd pathPart).Ends v fun r u => Still w u ∧
          ∀ next, r = .ok next → w.nextFd ≤ next ∧ next < u.nextFd := by
        refine Program.Ends.bind (ends_mapErrno_still rfl _ _ _ _ _ v) (fun next u hu => ?_)
          fun e u hu => ⟨hv.trans hu.1,fun _ hr => by cases hr⟩
        obtain ⟨hnext,hcount⟩ := hu.2 next rfl
        have hopened := hv.trans hu.1
        refine Program.Ends.bind (ends_close_closed fd u) (fun _ x hx => ?_) fun e x hx => ?_
        · refine ⟨hopened.of_closed hle hx,?_⟩
          rintro _ ⟨⟩
          have hbelow := hv.keeps.nextFd
          have hsame : x.nextFd = u.nextFd := hx.nextFd
          change w.nextFd ≤ next ∧ next < x.nextFd
          omega
        · exact ⟨hopened.of_closed hle hx,fun _ hr => by cases hr⟩
      refine Program.ends_onError.mpr (hpart.mono fun r u hu => ?_)
      cases r with
      | ok next => exact hu
      | error e =>
        refine (ends_close_closed fd u).mono fun r' x hx => ?_
        cases r' <;> exact ⟨hu.1.of_closed hle hx,fun _ hr => by cases hr⟩
    · exact fun next u hu => ih hu.1 (hu.2 next rfl).1 (hu.2 next rfl).2

theorem ioBasePayload_quiet (filename : Str) : (ioBasePayload filename).Within World.Quiet := by
  intro w
  unfold ioBasePayload
  split_ifs
  · exact World.quiet_tick w
  · exact syscall_quiet (fun _ _ _ h => by cases h; rfl) w

/-- What `read_file` does with the descriptor of a file. -/
theorem ends_payload_opened {fd : ℕ} (hv : Still w v) (hle : w.nextFd ≤ fd) (hlt : fd < v.nextFd)
    (hregular : Regular v fd) (p : Str) (fieldName : Option Str) :
    (CodeExecutorApi.readFile fd p fieldName).Ends v fun r u => Opened w r u ∧
      ∀ payload, r = .ok payload → payload.fd = fd := by
  have hinert (call : Call) : (Os.syscall call fun w => .ok ((),w) : Api Unit).Within World.Quiet :=
    syscall_quiet fun _ _ _ h => by cases h; rfl
  refine Program.ends_onError.mpr (Program.Ends.mono (Q := fun r u => v.Quiet u ∧
    ∀ payload, r = .ok payload → payload.fd = fd) ?_ fun r u hu => ?_)
  · refine Program.Ends.bind (R := fun _ u => v.Quiet u) (hinert .fdopen v) (fun _ u hu => ?_)
      fun e u hu => ⟨hu,fun _ hr => by cases hr⟩
    refine Program.Ends.bind (R := fun _ x => v.Quiet x) (hu.trans (ioBasePayload_quiet p u))
      (fun _ x hx => ?_) fun e x hx => ⟨hx,fun _ hr => by cases hr⟩
    cases contentDisposition p fieldName with
    | none => exact ⟨hx,fun _ hr => by cases hr⟩
    | some header => exact ⟨hx,fun _ hr => by cases hr; rfl⟩
  · cases r with
    | ok payload =>
      have hfd := hu.2 payload rfl
      refine ⟨⟨hv.of_quiet hu.1,?_⟩,hu.2⟩
      rintro _ ⟨⟩
      rw [hfd,hu.1.nextFd]
      exact ⟨hle,hlt,hregular.quiet hu.1⟩
    | error e =>
      refine (ends_close_closed fd u).mono fun r' x hx => ?_
      have hstill := (hv.of_quiet hu.1).of_closed hle hx
      cases r' <;> exact ⟨opened_error hstill,fun _ hr => by cases hr⟩

theorem ends_regular {fd : ℕ} (w : World) :
    (do
      let st ← Os.fstat fd
      if st.type = .directory then .raise (.os .isADirectory none)
      else if st.type ≠ .regular then .raise (.os .fileNotFound none)
      else pure () : Api Unit).Ends w fun r v => w.Quiet v ∧ (r = .ok () → Regular v fd) := by
  refine Program.Ends.bind (R := fun r v => w.Quiet v ∧ ∀ st, r = .ok st →
    ∃ n, v.nodeOf fd = .ok n ∧ st = n.stat) ?_ (fun st v hv => ?_)
    fun e v hv => ⟨hv.1,fun hr => by cases hr⟩
  · refine Os.ends_syscall ?_ ?_ fun st v h => ?_
    · exact fun _ _ => ⟨World.quiet_tick w,fun _ hr => by cases hr⟩
    · exact fun _ _ => ⟨World.quiet_tick w,fun _ hr => by cases hr⟩
    · have hv := World.fstat_ok h
      subst v
      refine ⟨World.quiet_tick w,?_⟩
      rintro _ ⟨⟩
      unfold World.fstat at h
      cases hn : w.nodeOf fd with
      | error e =>
        rw [hn] at h
        cases h
      | ok n =>
        rw [hn] at h
        cases h
        exact ⟨n,hn,rfl⟩
  · obtain ⟨n,hn,rfl⟩ := hv.2 st rfl
    split_ifs with hdir hother
    · exact ⟨hv.1,fun hr => by cases hr⟩
    · exact ⟨hv.1,fun hr => by cases hr⟩
    · refine ⟨hv.1,fun _ => ?_⟩
      rw [not_not] at hother
      cases n with
      | file a content => exact ⟨a,content,hn⟩
      | dir | symlink => cases hother
      | special a kind => cases kind <;> cases hother

theorem ends_readOpened_opened {parentFd : ℕ} (hv : Still w v)
    (hlt : parentFd < v.nextFd) (p filename : Str) (fieldName : Option Str) :
    (readOpened p fieldName parentFd filename).Ends v fun r u => Opened w r u ∧
      ∀ payload, r = .ok payload → parentFd ≠ payload.fd := by
  refine Program.Ends.bind (ends_mapErrno_still rfl _ _ _ _ _ v) (fun fd u hu => ?_)
    fun e u hu => ⟨opened_error (hv.trans hu.1),fun _ hr => by cases hr⟩
  obtain ⟨hfd,hnext⟩ := hu.2 fd rfl
  have hopened : Still w u := hv.trans hu.1
  have hnewer : w.nextFd ≤ fd := hfd ▸ hv.keeps.nextFd
  refine Program.Ends.bind (R := fun r x => Still w x ∧
    (r = .ok () → u.Quiet x ∧ Regular x fd)) ?_ (fun _ x hx => ?_) fun e x hx => ?_
  · refine Program.ends_onError.mpr ((ends_regular u).mono fun r x hx => ?_)
    cases r with
    | ok => exact ⟨hopened.of_quiet hx.1,fun _ => ⟨hx.1,hx.2 rfl⟩⟩
    | error e =>
      refine (ends_close_closed fd x).mono fun r' y hy => ?_
      have hstill := (hopened.of_quiet hx.1).of_closed hnewer hy
      cases r' <;> exact ⟨hstill,fun hr => by cases hr⟩
  · obtain ⟨hquiet,hregular⟩ := hx.2 rfl
    have hlast : fd < x.nextFd := by
      rw [hquiet.nextFd]
      omega
    refine (ends_payload_opened hx.1 hnewer hlast hregular p fieldName).mono fun r y hy => ?_
    refine ⟨hy.1,fun payload hr => ?_⟩
    rw [hy.2 payload hr]
    omega
  · exact ⟨opened_error hx.1,fun _ hr => by cases hr⟩

/-- `read_file` in any environment and any tree. -/
theorem ends_readFile_opened (workDirectory q : Str) (fieldName : Option Str) (w : World) :
    (readFile workDirectory q fieldName).Ends w (Opened w) := by
  unfold readFile
  refine Program.Ends.bind (R := fun _ v => v = w) ?_ ?_ ?_
  · unfold Session.normalize
    split <;> rfl
  · rintro p v rfl
    refine Program.Ends.bind (ends_open_still rfl workDirectory dirMode none v) (fun fd u hu => ?_)
      fun e u hu => opened_error hu.1
    obtain ⟨hfd,hnext⟩ := hu.2 fd rfl
    refine ends_openParts_opened (fun parentFd x hx _ hlt => ?_) _ hu.1 hfd.ge (by omega)
    exact ends_readOpened_opened hx hlt p _ fieldName
  · rintro e v rfl
    exact opened_error (.refl v)

end Walk
end Session
end CodeExecutorApi
