import CodeExecutorApi.Routes.Streaming
import CodeExecutorApi.Sessions.Openings

/-! Whole requests as runs of a served session: what the handlers do from getting the lock to giving
it back is a sequence of its steps, and every open file of a response becomes a stream. -/
namespace CodeExecutorApi
open Python Posix Machine

section Regular
variable {limits : Limits} {workDirectory : Str} {host : Host} {w v : World}

/-- Every one of these payloads stands for a regular file. -/
def AllRegular (v : World) (payloads : List Payload) : Prop :=
  ∀ payload ∈ payloads, Session.Regular v payload.fd

theorem allRegular_nil (v : World) : AllRegular v [] := fun _ h => by cases h

theorem inodesOf_regular {payloads : List Payload} (h : AllRegular v payloads) :
    (inodesOf v payloads).map some = payloads.map fun payload => inodeOf v payload.fd := by
  induction payloads with
  | nil => rfl
  | cons payload payloads ih =>
    obtain ⟨⟨a,content,hn⟩,hrest⟩ := List.forall_mem_cons.mp h
    have hino : inodeOf v payload.fd = some a.ino := by rw [inodeOf,hn]
    have hcons : inodesOf v (payload :: payloads) = a.ino :: inodesOf v payloads :=
      List.filterMap_cons_some (f := fun payload : Payload => inodeOf v payload.fd) hino
    rw [hcons,List.map_cons,List.map_cons,ih hrest,hino]

theorem ends_handleGetFile_regular (q : Str) (w : World) :
    (handleGetFile workDirectory q).Ends w fun r v => AllRegular v (contentPayloads r) := by
  have hlisting (w : World) : (do
      let listing ← Session.listDirectory workDirectory q
      return .json listing : Api Response).Ends w fun r v => AllRegular v (contentPayloads r) :=
    Program.Ends.bind (R := fun _ _ => True) trivial (fun _ v _ => allRegular_nil v)
      fun _ v _ => allRegular_nil v
  unfold handleGetFile
  refine Program.Ends.handle (R := fun r v => AllRegular v (contentPayloads r)) ?_
    (fun _ v hv => hv) fun e v _ => ?_
  · split_ifs
    · exact hlisting w
    refine Program.Ends.handle (R := fun r v => AllRegular v (contentPayloads r)) ?_
      (fun _ v hv => hv) fun e v _ => ?_
    · refine Program.Ends.bind (Session.ends_readFile_opened workDirectory q none w)
        (fun payload v hv => ?_) fun e v _ => allRegular_nil v
      exact List.forall_mem_singleton.mpr (hv.2 payload rfl).2.2
    · split
      · exact hlisting v
      · exact allRegular_nil v
  · split <;> exact allRegular_nil v

theorem ends_fileRequest_regular (maxFileSize : ℕ) (request : FileRequest) (w : World) :
    (request.handler maxFileSize workDirectory).Ends w fun r v =>
      AllRegular v (contentPayloads r) := by
  have hnone {x : Api Response} (hx : x.Returns fun r => contentPayloads (.ok r) = []) :
      x.Ends w fun r v => AllRegular v (contentPayloads r) := by
    intro payload hpayload
    cases hr : (x w).1 with
    | error e =>
      rw [hr] at hpayload
      cases hpayload
    | ok response =>
      rw [hr,hx w response hr] at hpayload
      cases hpayload
  cases request with
  | get q => exact ends_handleGetFile_regular q w
  | put q content =>
    refine hnone (.handle (.handle (.bind (.trivial _) fun _ _ => .pure rfl) fun e => ?_)
      fun e => ?_)
    · split <;> first | exact .pure rfl | exact .raise _
    · split <;> first | exact .pure rfl | exact .raise _
  | delete q =>
    refine hnone (.handle (.bind (.trivial _) fun _ _ => .pure rfl) fun e => ?_)
    split <;> first | exact .pure rfl | exact .raise _

/-- The loop keeps what it has opened. -/
theorem ends_openPayloads_regular {payloads : List Payload} (omittedFiles subPaths : List Str)
    (hopen : ∀ payload ∈ payloads, payload.fd < w.nextFd ∧ Session.Regular w payload.fd) :
    (openPayloads limits workDirectory payloads omittedFiles subPaths).Ends w fun r v =>
      ∀ out, r = .ok out → AllRegular v out.1 := by
  induction subPaths generalizing w payloads omittedFiles with
  | nil =>
    rintro _ ⟨⟩ payload hpayload
    exact (hopen payload hpayload).2
  | cons subPath subPaths ih =>
    unfold openPayloads
    split_ifs
    · exact ih _ hopen
    refine Program.Ends.bind (R := fun r v => ∃ outcome, r = .ok outcome ∧
      Session.Opened w outcome v) ?_ ?_ ?_
    · exact Program.ends_attempt.mpr ((Session.ends_readFile_opened workDirectory subPath _ w).mono
        fun r v hv => ⟨r,rfl,hv⟩)
    · rintro outcome v ⟨_,⟨⟩,hv⟩
      have hkept : ∀ payload ∈ payloads, payload.fd < v.nextFd ∧ Session.Regular v payload.fd := by
        intro payload hpayload
        obtain ⟨hlt,hregular⟩ := hopen payload hpayload
        exact ⟨hlt.trans_le hv.1.keeps.nextFd,hregular.still hv.1 hlt⟩
      split
      · rename_i payload
        refine ih _ fun p hp => ?_
        rcases List.mem_append.mp hp with hp | hp
        · exact hkept p hp
        · rw [List.mem_singleton.mp hp]
          exact (hv.2 payload rfl).2
      · exact ih _ hkept
      · exact ih _ hkept
      · intro out hout
        cases hout
    · rintro e v ⟨_,h,_⟩
      cases h

theorem ends_execute_regular (w : World) : (execute limits workDirectory host).Ends w fun r v =>
    AllRegular v (resultPayloads r) := by
  refine Program.Ends.bind (R := fun _ _ => True) trivial (fun _ v _ => ?_)
    fun _ v _ => allRegular_nil v
  refine Program.Ends.bind (R := fun _ _ => True) trivial (fun before u _ => ?_)
    fun _ v _ => allRegular_nil v
  refine Program.Ends.bind (R := fun _ _ => True) trivial (fun result x _ => ?_)
    fun _ v _ => allRegular_nil v
  refine Program.Ends.bind (R := fun _ _ => True) trivial (fun after y _ => ?_)
    fun _ v _ => allRegular_nil v
  refine Program.Ends.bind (R := fun r z => ∀ out, r = .ok out → AllRegular z out.1) ?_
    (fun out z hz => hz out rfl) fun _ z _ => allRegular_nil z
  refine Program.ends_mapError.mpr ((ends_openPayloads_regular _ _ fun _ h => by cases h).mono
    fun r z hz out hout => ?_)
  cases r with
  | ok out' =>
    cases hout
    exact hz _ rfl
  | error e => cases hout

theorem ends_lockedBlock_regular (body : List (Except (Exc AppError) Part)) (w : World) :
    (lockedBlock limits workDirectory host body).Ends w fun r v =>
      AllRegular v (resultPayloads r) := by
  refine Program.Ends.bind (R := fun _ _ => True) trivial (fun _ v _ => ?_)
    fun _ v _ => allRegular_nil v
  refine Program.Ends.bind (R := fun r _ => ∀ staged, r = .ok staged → ∀ response,
    staged = .error response → resultPayloads (.ok response) = []) ?_ (fun staged t ht => ?_)
    fun _ v _ => allRegular_nil v
  · exact fun staged hstaged => stagingBlock_empty body v staged hstaged
  cases staged with
  | error response =>
    change AllRegular t (resultPayloads (.ok response))
    rw [ht _ rfl response rfl]
    exact allRegular_nil t
  | ok fields => exact ends_execute_regular t

end Regular

namespace ServedSession

/-- The kernel numbers new files apart from everything that is in use. -/
structure Numbered (made : Set ℕ) (s : ServedSession) : Prop where
  world : s.world.Numbered made
  streams : ∀ n ≥ s.world.calls, ∀ st ∈ s.streams, st.ended = false →
    st.ino ≠ s.world.env.ino n

/-- The holder of the lock made its calls. -/
structure Called (s : ServedSession) (h : Holder) (v : World) (s' : ServedSession) : Prop where
  world : s'.world = v
  holder : s'.holder = some h
  stray : s'.stray = s.stray
  streams : s'.streams = s.streams
  arrived : s'.arrived = s.arrived

open Classical in
/-- What the kernel keeps: what a name leads to, and of a file without one what it kept before. -/
noncomputable def kernelContents (t : Node) (contents : ℕ → Bytes) (ino : ℕ) : Bytes :=
  if h : ∃ content, t.Stores ino content then h.choose else contents ino

section Calls
variable {s s' s'' : ServedSession} {h h' : Holder} {v u : World}
  {made made' A : Set ℕ}

theorem kernelContents_stores {t : Node} {contents : ℕ → Bytes} {ino : ℕ} {content : Bytes}
    (hunique : ∀ ino content content', t.Stores ino content → t.Stores ino content' →
      content = content') (hs : t.Stores ino content) :
    kernelContents t contents ino = content := by
  have hex : ∃ content, t.Stores ino content := ⟨content,hs⟩
  rw [kernelContents,dif_pos hex]
  exact hunique ino _ _ hex.choose_spec hs

theorem kernelContents_nameless {t : Node} {contents : ℕ → Bytes} {ino : ℕ}
    (hs : ∀ content, ¬t.Stores ino content) : kernelContents t contents ino = contents ino := by
  rw [kernelContents,dif_neg (not_exists.mpr hs)]

theorem Called.trans (hcalled : s.Called h v s') (hcalled' : s'.Called h' u s'') :
    s.Called h' u s'' :=
  ⟨hcalled'.world,hcalled'.holder,hcalled'.stray.trans hcalled.stray,
    hcalled'.streams.trans hcalled.streams,hcalled'.arrived.trans hcalled.arrived⟩

/-- One call of the holder is a step. -/
theorem exists_call (limits : Limits) (hs : s.Numbered made) (hholder : s.holder = some h)
    (hmade : h.made = made ∪ A) (hstopped : h.container ≠ .running) (hlater : s.world.Later v)
    (hcounted : made' = made ∨ s.world.calls < v.calls)
    (halters : Alters made s.world made' v.root) :
    ∃ s', Step limits s .call s' ∧ s'.Numbered made' ∧
      s.Called {h with made := made' ∪ A} v s' := by
  have hworld := hs.world.step hlater hcounted halters
  have hbacked : ∀ ino content, v.root.Stores ino content →
      kernelContents v.root s.contents ino = content :=
    fun ino content hstores => kernelContents_stores hworld.unique hstores
  have hfresh : ∀ ino ∈ made' ∪ A, ino ∉ h.made → ¬s.InUse ino := by
    intro ino hino hnot
    rw [hmade] at hnot
    have hnew : ino = s.world.env.ino s.world.calls := by
      rcases hino with hino | hino
      · exact (halters.mem_made hino).resolve_left fun hold => hnot (.inl hold)
      · exact absurd (.inr hino) hnot
    rintro (⟨content,hstores⟩ | ⟨st,hst,hopen,hsame⟩)
    · exact (hs.world.fresh _ le_rfl).2 content (hnew ▸ hstores)
    · exact hs.streams _ le_rfl st hst hopen (hsame.trans hnew)
  have halters' : Alters h.made s.world (made' ∪ A) v.root := hmade ▸ halters.union A
  refine ⟨_,.call hholder hstopped hlater halters' hfresh hbacked fun ino _ hnone =>
    kernelContents_nameless hnone,⟨hworld,fun n hn st hst hopen => ?_⟩,rfl,rfl,rfl,rfl,rfl⟩
  change st.ino ≠ v.env.ino n
  rw [hlater.env]
  exact hs.streams n (hlater.calls.trans hn) st hst hopen

/-- All the calls of the holder are a run. -/
theorem exists_calls (limits : Limits) {w : World} (hcalls : Posix.Calls made w made' v)
    (hw : s.world = w) (hs : s.Numbered made) (hholder : s.holder = some h) (hmade : h.made = made ∪ A)
    (hstopped : h.container ≠ .running) :
    ∃ history s', Trace (Step limits) s history s' ∧ s'.Numbered made' ∧
      s.Called {h with made := made' ∪ A} v s' := by
  induction hcalls with
  | refl =>
    refine ⟨[],s,.start,hs,hw,?_,rfl,rfl,rfl⟩
    rw [hholder,← hmade]
  | step _ hlater hcounted halters ih =>
    obtain ⟨history,t,run,ht,hcalled⟩ := ih
    rw [← hcalled.world] at hlater hcounted halters
    obtain ⟨s',hstep,hs',hcalled'⟩ :=
      exists_call limits ht hcalled.holder rfl hstopped hlater hcounted halters
    exact ⟨_,s',run.next hstep,hs',hcalled.trans hcalled'⟩

end Calls

/-- The request was served: the tree is what its handler left, the lock is free, and what it opened
is being sent. -/
structure Served (s : ServedSession) (v : World) (inos : List ℕ) (s' : ServedSession) : Prop where
  world : s'.world = v
  holder : s'.holder = none
  stray : s'.stray = s.stray
  streams : s'.streams = s.streams ++ inos.map fun ino => ⟨s.arrived,ino,[],none,false⟩
  arrived : s'.arrived = s.arrived + 1

section Requests
variable {limits : Limits} {s t s' : ServedSession} {h : Holder} {u v : World} {inos : List ℕ}
  {made : Set ℕ} {request : SessionRequest} {host : Host}

/-- A handler that is at its end gives the lock back. -/
theorem exists_leave (ht : t.Numbered made) (hholder : t.holder = some h)
    (hnumber : h.number = s.arrived) (hstopped : h.container ≠ .running)
    (hreturns : h.Returns limits t.world inos)
    (hstores : ∀ ino ∈ inos, ∃ content, t.world.root.Stores ino content)
    (hstray : t.stray = s.stray) (hstreams : t.streams = s.streams)
    (harrived : t.arrived = s.arrived + 1) :
    ∃ s', Step limits t .leave s' ∧ s'.Numbered ∅ ∧ s.Served t.world inos s' := by
  refine ⟨_,.leave hholder hstopped hreturns,⟨ht.world.forget,fun n hn st hst hopen => ?_⟩,
    rfl,rfl,hstray,by rw [hstreams,hnumber],harrived⟩
  rcases List.mem_append.mp hst with hst | hst
  · exact ht.streams n hn st hst hopen
  · obtain ⟨ino,hino,rfl⟩ := List.mem_map.mp hst
    obtain ⟨content,hcontent⟩ := hstores ino hino
    exact fun hsame => (ht.world.fresh n hn).2 content (hsame ▸ hcontent)

/-- A request without a run of code. -/
theorem exists_served (limits : Limits) (hfree : s.holder = none) (hs : s.Numbered ∅)
    (hreach : s.world.Reaches v)
    (hreturns : ∀ made,
      Holder.Returns limits ⟨s.arrived,request,s.world,made,.awaited,false⟩ v inos)
    (hstores : ∀ ino ∈ inos, ∃ content, v.root.Stores ino content) :
    ∃ history s', Trace (Step limits) s history s' ∧ s'.Numbered ∅ ∧ s.Served v inos s' := by
  obtain ⟨made,hcalls⟩ := hreach
  have hstopped : ContainerPhase.awaited ≠ .running := by decide
  have hentered : (s.entered request).Numbered ∅ := ⟨hs.world,hs.streams⟩
  obtain ⟨history,t,run,ht,hcalled⟩ := exists_calls limits (A := ∅) (s := s.entered request)
    hcalls rfl hentered rfl (Set.union_empty _).symm hstopped
  have hworld := hcalled.world
  subst v
  obtain ⟨s',hleave,hs',hserved⟩ := exists_leave (s := s) ht hcalled.holder rfl hstopped
    (hreturns _) hstores hcalled.stray hcalled.streams hcalled.arrived
  have henter : Trace (Step limits) s [(s,.enter request)] (s.entered request) :=
    .next .start (.enter hfree)
  exact ⟨_,s',(henter.trans run).next hleave,hs',hserved⟩

/-- The container of a request runs once and leaves this tree. -/
theorem exists_container (limits : Limits) {tree : Node} {body : List (Except (Exc AppError) Part)}
    (hholder : t.holder = some h) (hrequest : h.request = .execute host body)
    (hawaited : h.container = .awaited)
    (hunique : ∀ ino content content', tree.Stores ino content → tree.Stores ino content' →
      content = content') :
    ∃ history t', Trace (Step limits) t history t' ∧
      t.Called {h with container := .ended} {t.world with root := tree} t' := by
  have hbacked : ∀ ino content, tree.Stores ino content →
      kernelContents tree t.contents ino = content :=
    fun ino content hstores => kernelContents_stores hunique hstores
  let started : ServedSession := {t with holder := some {h with container := .running}}
  let executed : ServedSession := {started with
    world := {t.world with root := tree}
    contents := kernelContents tree t.contents
    backed := hbacked}
  have hstart : Step limits t .start started := .start hholder hrequest hawaited
  have hcode : Step limits started (.code (kernelContents tree t.contents)) executed :=
    .code (.inr ⟨_,rfl,rfl⟩) hbacked
  have hexit : Step limits executed (.exit false) _ := .exit rfl rfl
  exact ⟨_,_,((Trace.start.next hstart).next hcode).next hexit,rfl,rfl,Bool.or_false _,rfl,rfl⟩

/-- A request whose code is executed. The kernel numbers the files that the code makes as well. -/
theorem exists_executed (limits : Limits) {body : List (Except (Exc AppError) Part)}
    (hfree : s.holder = none) (hs : s.Numbered ∅) (hrun : Executes host s.world v)
    (hcode : ∀ u, s.world.Later u → u.Numbered ∅ →
      World.Numbered ∅ {u with root := host.code u.root})
    (hreturns : ∀ made, Holder.Returns limits
      ⟨s.arrived,.execute host body,s.world,made,.ended,false⟩ v inos)
    (hstores : ∀ ino ∈ inos, ∃ content, v.root.Stores ino content) :
    ∃ history s', Trace (Step limits) s history s' ∧ s'.Numbered ∅ ∧ s.Served v inos s' := by
  obtain ⟨u,⟨made,hbefore⟩,⟨made',hafter⟩⟩ := hrun
  have hstopped : ContainerPhase.awaited ≠ .running ∧ ContainerPhase.ended ≠ .running := by decide
  have hentered : (s.entered (.execute host body)).Numbered ∅ := ⟨hs.world,hs.streams⟩
  have henter : Trace (Step limits) s [(s,.enter (.execute host body))]
      (s.entered (.execute host body)) := .next .start (.enter hfree)
  obtain ⟨history,t,run,ht,hcalled⟩ := exists_calls limits (A := ∅)
    (s := s.entered (.execute host body)) hbefore rfl hentered rfl (Set.union_empty _).symm
    hstopped.1
  have hworld := hcalled.world
  subst u
  have hcoded : World.Numbered ∅ {t.world with root := host.code t.world.root} :=
    hcode t.world hbefore.later ht.world.forget
  obtain ⟨history',t',run',hran⟩ := exists_container limits hcalled.holder rfl rfl hcoded.unique
  have ht' : t'.Numbered ∅ := by
    refine ⟨hran.world ▸ hcoded,fun n hn st hst hopen => ?_⟩
    rw [hran.streams] at hst
    rw [hran.world] at hn ⊢
    exact ht.streams n hn st hst hopen
  obtain ⟨history'',t'',run'',ht'',hdone⟩ := exists_calls limits (A := made ∪ ∅) hafter
    hran.world ht' hran.holder (Set.empty_union _).symm hstopped.2
  have hworld := hdone.world
  subst v
  have hall := (hcalled.trans hran).trans hdone
  obtain ⟨s',hleave,hs',hserved⟩ := exists_leave (s := s) ht'' hall.holder rfl hstopped.2
    (hreturns _) hstores hall.stray hall.streams hall.arrived
  exact ⟨_,s',(((henter.trans run).trans run').trans run'').next hleave,hs',hserved⟩

/-- A handler that leaves the world `v`, with these payloads in its response, is a run of the served
session. It opens a stream for every payload. -/
def Serves (limits : Limits) (s : ServedSession) (payloads : List Payload) (v : World) : Prop :=
  ∃ history s' inos, Trace (Step limits) s history s' ∧ s'.Numbered ∅ ∧ s.Served v inos s' ∧
    inos.map some = payloads.map fun payload => inodeOf v payload.fd

/-- Each request that finds the lock free is served by a run, in any environment: one to the files
API, and one to execute code if the kernel numbers the files that the code makes as well. -/
theorem requests_served (limits : Limits) (hfree : s.holder = none) (hs : s.Numbered ∅) :
    (∀ (request : FileRequest) r v,
      request.handler limits.maxFileSize Session.rootDirectory s.world = (r,v) →
        s.Serves limits (contentPayloads r) v) ∧
    ∀ (host : Host) (body : List (Except (Exc AppError) Part)) r v,
      lockedBlock limits Session.rootDirectory host body s.world = (r,v) →
        (∀ u, s.world.Later u → u.Numbered ∅ →
          World.Numbered ∅ {u with root := host.code u.root}) →
        s.Serves limits (resultPayloads r) v := by
  refine ⟨fun request r v hrun => ?_,fun host body r v hrun hcode => ?_⟩
  · have hreach : s.world.Reaches v :=
      (Program.ends_of_run (Q := fun _ v => s.world.Reaches v) hrun).mp
        (request.reaches limits.maxFileSize s.world)
    have hregular := (Program.ends_of_run hrun).mp (ends_fileRequest_regular _ request s.world)
    obtain ⟨history,s',run,hs',hserved⟩ := exists_served limits hfree hs hreach
      (fun made => .files rfl hrun) fun ino hino => stores_inodesOf hino
    exact ⟨history,s',_,run,hs',hserved,inodesOf_regular hregular⟩
  · have hblock := (Program.ends_of_run hrun).mp (ends_lockedBlock body s.world)
    have hregular := (Program.ends_of_run hrun).mp (ends_lockedBlock_regular body s.world)
    rcases hblock with hexecutes | ⟨hreach,hempty⟩
    · obtain ⟨history,s',run,hs',hserved⟩ := exists_executed limits hfree hs hexecutes hcode
        (fun made => .execute rfl hrun fun _ => rfl) fun ino hino => stores_inodesOf hino
      exact ⟨history,s',_,run,hs',hserved,inodesOf_regular hregular⟩
    · obtain ⟨history,s',run,hs',hserved⟩ := exists_served limits hfree hs hreach
        (fun made => .execute rfl hrun fun hne => absurd hempty hne)
        fun ino hino => stores_inodesOf hino
      exact ⟨history,s',_,run,hs',hserved,inodesOf_regular hregular⟩

/-- A deletion that finds the lock free is served by a run as well: its directory is opened up and
emptied by steps that write to no file. The directory itself is no part of what it holds. -/
theorem deletion_served (limits : Limits) (hfree : s.holder = none) (hs : s.Numbered ∅) {n : ℕ}
    {path : Bytes} (hopened : s.world.chmodFrom [] path openMode = .ok u)
    (hremoved : removeEntries n [] (fwalkUnlock n [] u) = .ok v) : s.Serves limits [] v := by
  have hreach : s.world.Reaches v :=
    IsTrans.trans _ u v (chmodFrom_reaches hopened) (emptied_reaches hremoved)
  obtain ⟨history,s',run,hs',hserved⟩ := exists_served limits hfree hs hreach
    (fun made => .deleteSession rfl) (List.forall_mem_nil _)
  exact ⟨history,s',[],run,hs',hserved,rfl⟩

end Requests

/-- Inode 1 is never given to a new file here. -/
theorem numbered_oneFile {w : World} {mtimeNs : ℤ} {bytes : Bytes}
    (hroot : w.root = oneFile mtimeNs bytes) (hino : w.env.ino = fun n => n+2) :
    w.Numbered ∅ where
  single _ hmem := absurd hmem (Set.notMem_empty _)
  unique ino content content' h h' := by
    rw [hroot] at h h'
    exact (stores_oneFile.mp h).2.symm.trans (stores_oneFile.mp h').2
  fresh n _ := by
    refine ⟨Set.notMem_empty _,fun content h => ?_⟩
    rw [hroot,hino] at h
    have hsame : 1 = n + 2 := (stores_oneFile.mp h).1
    omega
  distinct n _ m _ h := by
    rw [hino] at h
    exact Nat.add_right_cancel h

theorem requests_served_oneFile :
    oneFileSession.Serves exampleLimits (contentPayloads (handleGetFile Session.rootDirectory
      (lit "f") oneFileSession.world).1) openedWorld ∧
    oneFileSession.Serves exampleLimits (resultPayloads (lockedBlock exampleLimits
      Session.rootDirectory writingHost printOne.body oneFileSession.world).1)
      (lockedBlock exampleLimits Session.rootDirectory writingHost printOne.body
        oneFileSession.world).2 := by
  have hs : oneFileSession.Numbered ∅ :=
    ⟨numbered_oneFile rfl rfl,fun _ _ _ hst => by cases hst⟩
  have hcode (u : World) (hu : oneFileSession.world.Later u) (_ : u.Numbered ∅) :
      World.Numbered ∅ {u with root := writingHost.code u.root} :=
    numbered_oneFile (rfl : _ = oneFile 5 [3,4]) (congrArg Environment.ino hu.env)
  obtain ⟨hfiles,hexecute⟩ := requests_served exampleLimits (s := oneFileSession) rfl hs
  exact ⟨hfiles (.get (lit "f")) _ _ rfl,hexecute writingHost printOne.body _ _ rfl hcode⟩

end ServedSession
end CodeExecutorApi
