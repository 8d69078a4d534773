import CodeExecutorApi.Machine.Runs
import CodeExecutorApi.Routes.Attribution
import CodeExecutorApi.Routes.Sections

/-! Responses that are streamed while later requests on the same session are served. The server
reads the open files of a response after its handler has returned and the lock is free. -/
namespace CodeExecutorApi
open Python Posix Machine

/-- A request that takes the lock of a session. -/
inductive SessionRequest
  | files (request : FileRequest)
  | execute (host : Host) (body : List (Except (Exc AppError) Part))
  | deleteSession

/-- Where a request is with the container of its code. -/
inductive ContainerPhase
  | awaited
  | running
  | ended
  deriving DecidableEq, Repr

/-- The request that holds the lock, the world it entered in, and the files it has created since. It
is disturbed if code that it has not started changes the session meanwhile. -/
structure Holder where
  number : ℕ
  request : SessionRequest
  entered : World
  made : Set ℕ
  container : ContainerPhase
  disturbed : Bool

/-- Code was executed. Until its own container ends, the request takes it for its own. -/
def Holder.disturb (h : Holder) : Holder :=
  if h.container = .running then h else {h with disturbed := true}

/-- A payload that is being sent: the number of its request, the inode of its descriptor, the bytes
read so far, and its size once the server asked for it. -/
structure Stream where
  number : ℕ
  ino : ℕ
  sent : Bytes
  size : Option ℕ
  ended : Bool
  deriving DecidableEq, Repr

/-- A session with what the kernel keeps for each inode, whether a name leads to it or not, and the
streams in the order they were opened in. A stray container has outlived its request. -/
structure ServedSession where
  world : World
  contents : ℕ → Bytes
  backed : ∀ ino content, world.root.Stores ino content → contents ino = content
  holder : Option Holder
  stray : Bool
  streams : List Stream
  arrived : ℕ

/-- The inode of the regular file that a descriptor stands for. -/
def inodeOf (w : World) (fd : ℕ) : Option ℕ :=
  match w.nodeOf fd with
  | .ok (.file a _) => some a.ino
  | _ => none

/-- The inodes of the open files that a response streams. -/
def inodesOf (w : World) (payloads : List Payload) : List ℕ :=
  payloads.filterMap fun payload => inodeOf w payload.fd

/-- The handler that holds the lock is at its end in the world `v`, with files to be streamed. A
response has results only after the run. A deletion may stop anywhere, and a handler that is
disturbed may come to any end: its files may have lost their names since they were opened. -/
inductive Holder.Returns (limits : Limits) (h : Holder) (v : World) : List ℕ → Prop
  | files {request : FileRequest} {r : Except (Exc AppError) Response}
      (hrequest : h.request = .files request)
      (hrun : request.handler limits.maxFileSize Session.rootDirectory h.entered = (r,v)) :
      h.Returns limits v (inodesOf v (contentPayloads r))
  | execute {host : Host} {body : List (Except (Exc AppError) Part)}
      {r : Except Fault ExecuteResponse} (hrequest : h.request = .execute host body)
      (hrun : lockedBlock limits Session.rootDirectory host body h.entered = (r,v))
      (hended : resultPayloads r ≠ [] → h.container = .ended) :
      h.Returns limits v (inodesOf v (resultPayloads r))
  | deleteSession (hrequest : h.request = .deleteSession) : h.Returns limits v []
  | disturbed {inos : List ℕ} (hdisturbed : h.disturbed = true)
      (hended : inos ≠ [] → ∀ host body, h.request = .execute host body →
        h.container = .ended) :
      h.Returns limits v inos

/-- One step of the server with a payload whose inode has this content: it asks for the size, it
reads a chunk, or it is done, at the end of the file or when it has sent as much as it announced. -/
inductive Stream.Advances (content : Bytes) (st : Stream) : Stream → Prop
  | measure : st.Advances content {st with size := some content.length}
  | chunk (n : ℕ) (hroom : ∀ size, st.size = some size → st.sent.length + n ≤ size) :
      st.Advances content {st with sent := st.sent ++ (content.drop st.sent.length).take n}
  | finish (hend : content.length ≤ st.sent.length ∨
      ∃ size, st.size = some size ∧ size ≤ st.sent.length) :
      st.Advances content {st with ended := true}

/-- What happens next. Executed code comes with the inodes it leaves. -/
inductive SessionEvent
  | enter (request : SessionRequest)
  | call
  | start
  | code (contents : ℕ → Bytes)
  | exit (outlives : Bool)
  | leave
  | send (k : ℕ)

namespace ServedSession

/-- The number of an inode that a name leads to, or that is being sent. -/
def InUse (s : ServedSession) (ino : ℕ) : Prop :=
  (∃ content, s.world.root.Stores ino content) ∨
    ∃ st ∈ s.streams, st.ended = false ∧ st.ino = ino

/-- Code can be executed now. -/
def Executing (s : ServedSession) : Prop :=
  s.stray = true ∨ ∃ h, s.holder = some h ∧ h.container = .running

/-- The steps of the server and of the code that it executes. Of the server, only the holder of the
lock touches the tree. The kernel gives a new file a number that is not in use, and what an inode
holds that has lost its name is changed by its creator or by executed code only. -/
inductive Step (limits : Limits) (s : ServedSession) : SessionEvent → ServedSession → Prop
  | enter {request : SessionRequest} (hfree : s.holder = none) :
      s.Step limits (.enter request) {s with
        holder := some ⟨s.arrived,request,s.world,∅,.awaited,false⟩
        arrived := s.arrived+1}
  | call {h : Holder} {v : World} {made : Set ℕ} {contents : ℕ → Bytes}
      (hholder : s.holder = some h) (hstopped : h.container ≠ .running)
      (hlater : s.world.Later v) (halters : Alters h.made s.world made v.root)
      (hfresh : ∀ ino ∈ made, ino ∉ h.made → ¬s.InUse ino)
      (hbacked : ∀ ino content, v.root.Stores ino content → contents ino = content)
      (hnameless : ∀ ino ∉ made, (∀ content, ¬v.root.Stores ino content) →
        contents ino = s.contents ino) :
      s.Step limits .call {s with
        world := v
        contents := contents
        backed := hbacked
        holder := some {h with made := made}}
  | start {h : Holder} {host : Host} {body : List (Except (Exc AppError) Part)}
      (hholder : s.holder = some h) (hrequest : h.request = .execute host body)
      (hawaited : h.container = .awaited) :
      s.Step limits .start {s with holder := some {h with container := .running}}
  | code {t : Node} {contents : ℕ → Bytes} (hexecuting : s.Executing)
      (hbacked : ∀ ino content, t.Stores ino content → contents ino = content) :
      s.Step limits (.code contents) {s with
        world := {s.world with root := t}
        contents := contents
        backed := hbacked
        holder := s.holder.map Holder.disturb}
  | exit {h : Holder} {outlives : Bool} (hholder : s.holder = some h)
      (hrunning : h.container = .running) :
      s.Step limits (.exit outlives) {s with
        holder := some {h with container := .ended}
        stray := s.stray || outlives}
  | leave {h : Holder} {inos : List ℕ} (hholder : s.holder = some h)
      (hstopped : h.container ≠ .running) (hreturns : h.Returns limits s.world inos) :
      s.Step limits .leave {s with
        holder := none
        streams := s.streams ++ inos.map fun ino => ⟨h.number,ino,[],none,false⟩}
  | send {k : ℕ} {st st' : Stream} (hk : s.streams[k]? = some st) (hopen : st.ended = false)
      (hadvances : st.Advances (s.contents st.ino) st') :
      s.Step limits (.send k) {s with streams := s.streams.set k st'}

/-- While the request of this number held the lock, its own run being over if it has one, the file
had this content, and a name in the session led to it unless the request was disturbed. -/
def Held (history : List (ServedSession × SessionEvent)) (number ino : ℕ) (content : Bytes) :
    Prop :=
  ∃ m ∈ history, ∃ h, m.1.holder = some h ∧ h.number = number ∧
    (∀ host body, h.request = .execute host body → h.container = .ended) ∧
    m.1.contents ino = content ∧ (h.disturbed = false → m.1.world.root.Stores ino content)

/-- What was sent is what the file had at one moment at which its request held the lock. -/
def Snapshot (history : List (ServedSession × SessionEvent)) (st : Stream) : Prop :=
  Held history st.number st.ino st.sent

/-- Code that is executed does not write to the file of the `k`-th stream while it is sent. -/
def Spares (k : ℕ) (s : ServedSession) (e : SessionEvent) : Prop :=
  ∀ contents, e = .code contents → ∀ st, s.streams[k]? = some st → st.ended = false →
    contents st.ino = s.contents st.ino

/-- Code that is executed may write to the part of the `k`-th stream that was sent, but leaves the
rest of its file as it is. -/
def SparesRest (k : ℕ) (s : ServedSession) (e : SessionEvent) : Prop :=
  ∀ contents, e = .code contents → ∀ st, s.streams[k]? = some st → st.ended = false →
    (contents st.ino).drop st.sent.length = (s.contents st.ino).drop st.sent.length

/-- Nothing that is sent was created by the holder of the lock. -/
def Unmade (s : ServedSession) : Prop :=
  ∀ h, s.holder = some h → ∀ st ∈ s.streams, st.ended = false → st.ino ∉ h.made

/-- How far the server has come with a payload that had this content when it was opened: what was
sent and what is left make up the content. The size may have been asked for after all was sent. -/
structure Kept (history : List (ServedSession × SessionEvent)) (s : ServedSession) (st : Stream)
    (content : Bytes) : Prop where
  held : Held history st.number st.ino content
  rest : st.ended = false → st.sent ++ (s.contents st.ino).drop st.sent.length = content
  size : ∀ size, st.size = some size → size = content.length ∨ st.sent = content
  ended : st.ended = true → st.sent = content

section Steps
variable {limits : Limits} {s s' : ServedSession} {e : SessionEvent} {k number ino : ℕ}
  {st st' : Stream} {content : Bytes} {history : List (ServedSession × SessionEvent)}

theorem disturb_made (h : Holder) : h.disturb.made = h.made := by
  unfold Holder.disturb
  split_ifs <;> rfl

theorem Held.cons (p : ServedSession × SessionEvent) (h : Held history number ino content) :
    Held (p :: history) number ino content := by
  obtain ⟨m,hm,hheld⟩ := h
  exact ⟨m,List.mem_cons_of_mem _ hm,hheld⟩

theorem stores_inodeOf {w : World} {fd : ℕ} (h : inodeOf w fd = some ino) :
    ∃ content, w.root.Stores ino content := by
  unfold inodeOf at h
  split at h
  · rename_i a content hn
    cases h
    unfold World.nodeOf at hn
    cases hloc : w.locOf fd with
    | error e =>
      rw [hloc] at hn
      cases hn
    | ok loc =>
      rw [hloc] at hn
      dsimp only [bind,Except.bind] at hn
      split at hn
      · rename_i n hget
        cases hn
        exact ⟨content,loc,a,hget,rfl⟩
      · cases hn
  · cases h

theorem stores_inodesOf {w : World} {payloads : List Payload} (h : ino ∈ inodesOf w payloads) :
    ∃ content, w.root.Stores ino content := by
  obtain ⟨payload,-,hino⟩ := List.mem_filterMap.mp h
  exact stores_inodeOf hino

theorem ended_of_returns {h : Holder} {v : World} {inos : List ℕ}
    (hreturns : h.Returns limits v inos) (hino : ino ∈ inos) {host : Host}
    {body : List (Except (Exc AppError) Part)} (hrequest : h.request = .execute host body) :
    h.container = .ended := by
  cases hreturns with
  | files hfiles =>
    rw [hfiles] at hrequest
    cases hrequest
  | execute _ _ hended =>
    refine hended fun hnil => ?_
    rw [hnil] at hino
    cases hino
  | deleteSession => cases hino
  | disturbed _ hended => exact hended (List.ne_nil_of_mem hino) host body hrequest

/-- Unless it was disturbed, a handler leaves names that lead to what it has opened. -/
theorem stores_of_returns {h : Holder} {v : World} {inos : List ℕ}
    (hreturns : h.Returns limits v inos) (hino : ino ∈ inos) (hdisturbed : h.disturbed = false) :
    ∃ content, v.root.Stores ino content := by
  cases hreturns with
  | files | execute => exact stores_inodesOf hino
  | deleteSession => cases hino
  | disturbed hd =>
    rw [hd] at hdisturbed
    cases hdisturbed

theorem ino_of_advances (h : st.Advances content st') :
    st'.ino = st.ino ∧ st'.number = st.number := by
  cases h <;> exact ⟨rfl,rfl⟩

theorem Unmade.step (h : s.Unmade) (hstep : s.Step limits e s') : s'.Unmade := by
  cases hstep with
  | enter =>
    rintro _ ⟨⟩ st _ _ hmade
    exact hmade
  | @call hd v made contents hholder _ _ _ hfresh =>
    rintro _ ⟨⟩ st hst hopen hmade
    by_cases hold : st.ino ∈ hd.made
    · exact h hd hholder st hst hopen hold
    · exact hfresh st.ino hmade hold (.inr ⟨st,hst,hopen,rfl⟩)
  | @start hd _ _ hholder | @exit hd _ hholder =>
    rintro _ ⟨⟩
    exact h hd hholder
  | code =>
    intro hd' hd st hst hopen
    obtain ⟨holder,hholder,rfl⟩ := Option.map_eq_some_iff.mp hd
    rw [disturb_made]
    exact h holder hholder st hst hopen
  | leave => exact fun _ hd => by cases hd
  | @send k st st' hk hopen hadvances =>
    intro hd hholder u hu huopen
    rcases List.mem_or_eq_of_mem_set hu with hu | rfl
    · exact h hd hholder u hu huopen
    · rw [(ino_of_advances hadvances).1]
      exact h hd hholder st (List.mem_of_getElem? hk) hopen

/-- A call of the server leaves what is being sent as it is. -/
theorem contents_call (h : s.Unmade) (hstep : s.Step limits .call s') (hst : st ∈ s.streams)
    (hopen : st.ended = false) : s'.contents st.ino = s.contents st.ino := by
  have hunmade := h.step hstep
  cases hstep with
  | @call hd v made contents _ _ _ halters _ hbacked hnameless =>
    have hino : st.ino ∉ made := hunmade {hd with made := made} rfl st hst hopen
    by_cases hnamed : ∃ content, v.root.Stores st.ino content
    · obtain ⟨content,hstores⟩ := hnamed
      exact (hbacked _ _ hstores).trans (s.backed _ _ (halters.stores hino hstores)).symm
    · exact hnameless st.ino hino (not_exists.mp hnamed)

theorem Spares.sparesRest (h : s.Spares k e) : s.SparesRest k e :=
  fun contents he st hk hopen => by rw [h contents he st hk hopen]

theorem Kept.cons (h : Kept history s st content) (p : ServedSession × SessionEvent)
    (hrest : st.ended = false →
      (s'.contents st.ino).drop st.sent.length = (s.contents st.ino).drop st.sent.length) :
    Kept (p :: history) s' st content :=
  ⟨h.held.cons p,fun hopen => by rw [hrest hopen,h.rest hopen],h.size,h.ended⟩

/-- Nothing is left exactly if the content was sent. -/
theorem Kept.sent_eq (h : Kept history s st content) (hopen : st.ended = false) :
    st.sent = content ↔ (s.contents st.ino).drop st.sent.length = [] := by
  rw [← h.rest hopen,List.self_eq_append_right]

/-- One step with the payload itself. -/
theorem Kept.advances (h : Kept history s st content) (hopen : st.ended = false)
    (hadvances : st.Advances (s.contents st.ino) st') (p : ServedSession × SessionEvent)
    (hcontents : s'.contents = s.contents) : Kept (p :: history) s' st' content := by
  have hrest := h.rest hopen
  cases hadvances with
  | measure =>
    refine ⟨h.held.cons p,fun _ => hcontents ▸ hrest,?_,h.ended⟩
    rintro _ ⟨⟩
    rcases Nat.le_total (s.contents st.ino).length st.sent.length with hle | hle
    · exact .inr ((h.sent_eq hopen).mpr (List.drop_eq_nil_of_le hle))
    · left
      rw [← hrest,List.length_append,List.length_drop]
      omega
  | chunk n =>
    let left := (s.contents st.ino).drop st.sent.length
    refine ⟨h.held.cons p,fun _ => ?_,fun size hsize => (h.size size hsize).imp_right fun hall => ?_,
      fun hended => absurd (hopen.symm.trans hended) (by decide)⟩
    · have hdrop : (s.contents st.ino).drop (st.sent ++ left.take n).length = left.drop n := by
        rw [List.length_append,← List.drop_drop,List.length_take]
        rcases Nat.le_total n left.length with hn | hn
        · rw [min_eq_left hn]
        · rw [min_eq_right hn,List.drop_length,List.drop_eq_nil_of_le hn]
      change (st.sent ++ left.take n) ++
        (s'.contents st.ino).drop (st.sent ++ left.take n).length = content
      rw [hcontents,hdrop,List.append_assoc,List.take_append_drop,hrest]
    · change st.sent ++ left.take n = content
      rw [show left = [] from (h.sent_eq hopen).mp hall,List.take_nil,List.append_nil,hall]
  | finish hend =>
    have hall : st.sent = content := by
      rcases hend with hend | ⟨size,hsize,hend⟩
      · exact (h.sent_eq hopen).mpr (List.drop_eq_nil_of_le hend)
      · refine (h.size size hsize).elim (fun hlength => ?_) id
        have hprefix : st.sent <+: content := ⟨_,hrest⟩
        exact hprefix.eq_of_length_le (hlength ▸ hend)
    exact ⟨h.held.cons p,fun _ => hcontents ▸ hrest,h.size,fun _ => hall⟩

/-- A payload is opened with what its file has at that moment. -/
theorem kept_leave {h : Holder} {inos : List ℕ} (hholder : s.holder = some h)
    (hreturns : h.Returns limits s.world inos) (hcontents : s'.contents = s.contents)
    (hst : st ∈ inos.map fun ino => ⟨h.number,ino,[],none,false⟩) :
    ∃ content, Kept ((s,e) :: history) s' st content := by
  obtain ⟨ino,hino,rfl⟩ := List.mem_map.mp hst
  have hheld : Held ((s,e) :: history) h.number ino (s.contents ino) := by
    refine ⟨(s,e),List.mem_cons_self,h,hholder,rfl,?_,rfl,fun hdisturbed => ?_⟩
    · exact fun host body hrequest => ended_of_returns hreturns hino hrequest
    · obtain ⟨content,hstores⟩ := stores_of_returns hreturns hino hdisturbed
      rwa [s.backed ino content hstores]
  refine ⟨s.contents ino,hheld,fun _ => congrFun hcontents ino,?_,?_⟩
  · exact fun _ hsize => by cases hsize
  · exact fun hended => by cases hended

/-- What holds of the `k`-th stream goes on to hold. -/
theorem Kept.step (hunmade : s.Unmade)
    (hkept : ∀ st, s.streams[k]? = some st → ∃ content, Kept history s st content)
    (hstep : s.Step limits e s') (hspares : s.SparesRest k e) (hk : s'.streams[k]? = some st) :
    ∃ content, Kept ((s,e) :: history) s' st content := by
  have hsame (hk : s.streams[k]? = some st) (hrest : st.ended = false →
      (s'.contents st.ino).drop st.sent.length = (s.contents st.ino).drop st.sent.length) :
      ∃ content, Kept ((s,e) :: history) s' st content := by
    obtain ⟨content,h⟩ := hkept st hk
    exact ⟨content,h.cons (s,e) hrest⟩
  cases id hstep with
  | enter | start | exit => exact hsame hk fun _ => rfl
  | call =>
    refine hsame hk fun hopen => ?_
    rw [contents_call hunmade hstep (List.mem_of_getElem? hk) hopen]
  | code => exact hsame hk fun hopen => hspares _ rfl st hk hopen
  | leave hholder _ hreturns =>
    rw [List.getElem?_append] at hk
    split_ifs at hk
    · exact hsame hk fun _ => rfl
    · exact kept_leave hholder hreturns rfl (List.mem_of_getElem? hk)
  | @send j u u' hj hopen hadvances =>
    rw [List.getElem?_set] at hk
    split_ifs at hk with hjk hlt
    · cases hk
      subst j
      obtain ⟨content,h⟩ := hkept u hj
      exact ⟨content,h.advances hopen hadvances _ rfl⟩
    · exact hsame hk fun _ => rfl

end Steps

section Runs
variable {limits : Limits} {s₀ s : ServedSession} {history : List (ServedSession × SessionEvent)}
  {k : ℕ} {st : Stream}

theorem Unmade.run (hstart : s₀.streams = []) (run : Trace (Step limits) s₀ history s) :
    s.Unmade := by
  induction run with
  | start =>
    intro h _ st hst
    rw [hstart] at hst
    cases hst
  | next _ taken ih => exact ih.step taken

theorem Kept.run (hstart : s₀.streams = []) (run : Trace (Step limits) s₀ history s)
    (hspares : Guarded (SparesRest k) history) (hk : s.streams[k]? = some st) :
    ∃ content, Kept history s st content := by
  induction run generalizing st with
  | start =>
    rw [hstart] at hk
    cases hk
  | next run taken ih =>
    obtain ⟨hspares,hrest⟩ := (guarded_cons _ _ _ _).mp hspares
    exact Kept.step (Unmade.run hstart run) (fun st hst => ih hrest hst) taken hspares hk

theorem Kept.snapshot {content : Bytes} (h : Kept history s st content) (hended : st.ended = true) :
    Snapshot history st := by
  unfold Snapshot
  rw [h.ended hended]
  exact h.held

/-- Unless code that is executed writes to the file while it is sent, a payload is delivered as the
file was at one moment at which its request held the lock. -/
theorem delivered_snapshot (hstart : s₀.streams = []) (run : Trace (Step limits) s₀ history s)
    (hk : s.streams[k]? = some st) (hended : st.ended = true)
    (hspares : Guarded (Spares k) history) : Snapshot history st := by
  have hrest : Guarded (SparesRest k) history := fun m hm => Spares.sparesRest (hspares m hm)
  obtain ⟨content,hkept⟩ := Kept.run hstart run hrest hk
  exact hkept.snapshot hended

/-- Every payload is delivered so in a run in which executed code leaves what is still to be sent of
the file as it is. -/
theorem delivered_under_lock (hstart : s₀.streams = []) (run : Trace (Step limits) s₀ history s)
    (hspares : Guarded (SparesRest k) history) (hk : s.streams[k]? = some st)
    (hended : st.ended = true) : Snapshot history st := by
  obtain ⟨content,hkept⟩ := Kept.run hstart run hspares hk
  exact hkept.snapshot hended

end Runs

section Requests
variable {limits : Limits} {s : ServedSession} {request : SessionRequest} {v : World}
  {inos : List ℕ}

/-- The session with a request that has just got the lock. -/
def entered (s : ServedSession) (request : SessionRequest) : ServedSession := {s with
  holder := some ⟨s.arrived,request,s.world,∅,.awaited,false⟩
  arrived := s.arrived+1}

/-- The same tree in a later world. -/
def later (s : ServedSession) (v : World) (hroot : v.root = s.world.root) : ServedSession := {s with
  world := v
  backed := fun _ _ h => s.backed _ _ (hroot ▸ h)}

theorem step_later {h : Holder} (hholder : s.holder = some h) (hstopped : h.container ≠ .running)
    (hlater : s.world.Later v) (hroot : v.root = s.world.root) :
    s.Step limits .call (s.later v hroot) := by
  have hcall : Step limits s .call _ := .call hholder hstopped hlater (hroot ▸ .rest)
    (fun _ hmade hnot => absurd hmade hnot) (s.later v hroot).backed fun _ _ _ => rfl
  unfold later
  rw [hholder]
  exact hcall

/-- A request that leaves the tree as it is. -/
theorem trace_unchanged (hfree : s.holder = none) (hlater : s.world.Later v)
    (hroot : v.root = s.world.root)
    (hreturns : Holder.Returns limits ⟨s.arrived,request,s.world,∅,.awaited,false⟩ v inos) :
    Trace (Step limits) s [((s.entered request).later v hroot,.leave),(s.entered request,.call),
      (s,.enter request)] {s.later v hroot with
        holder := none
        streams := s.streams ++ inos.map fun ino => ⟨s.arrived,ino,[],none,false⟩
        arrived := s.arrived+1} := by
  have hstopped : ContainerPhase.awaited ≠ .running := by decide
  have hleave : Step limits ((s.entered request).later v hroot) .leave _ :=
    .leave rfl hstopped hreturns
  have hcall : Step limits (s.entered request) .call ((s.entered request).later v hroot) :=
    step_later (s := s.entered request) rfl hstopped hlater hroot
  exact .next (.next (.next .start (.enter hfree)) hcall) hleave

/-- One step with the only stream. -/
theorem step_send {st st' : Stream} (hstreams : s.streams = [st]) (hopen : st.ended = false)
    (hadvances : st.Advances (s.contents st.ino) st') :
    s.Step limits (.send 0) {s with streams := [st']} := by
  have hsend : Step limits s (.send 0) _ := .send (by rw [hstreams]; rfl) hopen hadvances
  rwa [hstreams] at hsend

end Requests

/-- A session with one file, of inode 1. -/
def oneFile (mtimeNs : ℤ) (content : Bytes) : Node :=
  .dir ⟨0,Session.dirMode,0,0,0⟩
    [(⟨[0x66],isName_f⟩,.file ⟨1,⟨true,true,false⟩,0,mtimeNs,mtimeNs⟩ content)]

theorem stores_oneFile {mtimeNs : ℤ} {ino : ℕ} {bytes content : Bytes} :
    (oneFile mtimeNs bytes).Stores ino content ↔ 1 = ino ∧ bytes = content := by
  unfold oneFile
  rw [stores_dir]
  constructor
  · rintro ⟨c,n,hn,hstores⟩
    rw [lookup_cons_ite] at hn
    split_ifs at hn
    · cases hn
      exact stores_file.mp hstores
    · cases hn
  · exact fun h => ⟨_,_,List.lookup_cons_self,stores_file.mpr h⟩

/-- What the kernel keeps for inode 1. -/
def inodeOne (content : Bytes) (ino : ℕ) : Bytes := if ino = 1 then content else []

theorem backed_oneFile (mtimeNs : ℤ) (bytes : Bytes) (ino : ℕ) (content : Bytes)
    (h : (oneFile mtimeNs bytes).Stores ino content) : inodeOne bytes ino = content := by
  obtain ⟨rfl,rfl⟩ := stores_oneFile.mp h
  rfl

/-- This session, idle. -/
def oneFileSession : ServedSession where
  world := ⟨⟨40,fun _ _ => none,fun n => n+2,fun _ => 0,fun _ => 0,fun _ => [],fun _ => false,
    fun _ => false,fun _ => false⟩,oneFile 0 [1,2],[],3,0,[]⟩
  contents := inodeOne [1,2]
  backed := backed_oneFile 0 [1,2]
  holder := none
  stray := false
  streams := []
  arrived := 0

/-- The world after its file was opened for a client. -/
def openedWorld : World :=
  (handleGetFile Session.rootDirectory (lit "f") oneFileSession.world).2

/-- The file is being sent. -/
def sending (sent : Bytes) (ended : Bool) : ServedSession := {
  oneFileSession.later openedWorld rfl with
  streams := [⟨0,1,sent,none,ended⟩]
  arrived := 1}

theorem trace_sending (limits : Limits) : ∃ history,
    Trace (Step limits) oneFileSession history (sending [] false) ∧
      (∀ m ∈ history, m.1.contents = inodeOne [1,2]) ∧ ∀ k, Guarded (Spares k) history := by
  have hinos : inodesOf openedWorld (contentPayloads (handleGetFile Session.rootDirectory (lit "f")
      oneFileSession.world).1) = [1] := by decide +kernel
  have hreturns : Holder.Returns limits
      ⟨0,.files (.get (lit "f")),oneFileSession.world,∅,.awaited,false⟩ openedWorld [1] :=
    hinos ▸ .files rfl rfl
  have hlater : oneFileSession.world.Later openedWorld := ⟨rfl,by decide⟩
  refine ⟨_,trace_unchanged rfl hlater rfl hreturns,?_,fun k => ?_⟩
  · exact List.forall_mem_cons.mpr ⟨rfl,List.forall_mem_cons.mpr ⟨rfl,
      List.forall_mem_singleton.mpr rfl⟩⟩
  · simp [Spares]

/-- Code that writes other bytes to the file. -/
def writingHost : Host := {withoutPodman with
  start := none
  code := fun _ => oneFile 5 [3,4]}

/-- The world in which its container is started. -/
def startedWorld : World :=
  (untilStart exampleLimits Session.rootDirectory writingHost printOne openedWorld).2

/-- The file is being sent while the code runs. -/
def executing (container : ContainerPhase) : ServedSession := {
  (sending [1] false).later startedWorld rfl with
  holder := some ⟨1,.execute writingHost printOne.body,openedWorld,∅,container,false⟩
  arrived := 2}

theorem trace_executing : ∃ history,
    Trace (Step exampleLimits) oneFileSession history (executing .running) ∧
      (∀ m ∈ history, m.1.contents = inodeOne [1,2]) ∧ ∀ k, Guarded (Spares k) history := by
  obtain ⟨history,hget,hcontents,hspares⟩ := trace_sending exampleLimits
  have hfirst : Step exampleLimits (sending [] false) (.send 0) (sending [1] false) :=
    step_send rfl rfl (.chunk 1 fun _ hsize => by cases hsize)
  have henter : Step exampleLimits (sending [1] false)
      (.enter (.execute writingHost printOne.body)) _ := .enter rfl
  have hcall : Step exampleLimits ((sending [1] false).entered (.execute writingHost printOne.body))
      .call (executing .awaited) := by
    have hlater : openedWorld.Later startedWorld := ⟨rfl,by decide +kernel⟩
    exact step_later (s := (sending [1] false).entered _) rfl (by decide) hlater rfl
  have hstart : Step exampleLimits (executing .awaited) .start (executing .running) :=
    .start (h := ⟨1,.execute writingHost printOne.body,openedWorld,∅,.awaited,false⟩) rfl rfl rfl
  refine ⟨_,(((hget.next hfirst).next henter).next hcall).next hstart,fun m hm => ?_,fun k => ?_⟩
  · simp only [List.mem_cons] at hm
    rcases hm with rfl | rfl | rfl | rfl | hm
    · rfl
    · rfl
    · rfl
    · rfl
    · exact hcontents m hm
  · simp only [guarded_cons]
    exact ⟨by simp [Spares],by simp [Spares],by simp [Spares],by simp [Spares],hspares k⟩

/-- The code has written these bytes to the file. -/
def rewritten (bytes sent : Bytes) (ended : Bool) : ServedSession := {executing .running with
  world := {startedWorld with root := oneFile 5 bytes}
  contents := inodeOne bytes
  backed := backed_oneFile 5 bytes
  streams := [⟨0,1,sent,none,ended⟩]}

/-- The code writes, and then the second byte of the file is sent. -/
theorem trace_rewritten {history : List (ServedSession × SessionEvent)} (bytes : Bytes) (b : Byte)
    (hb : (bytes.drop 1).take 1 = [b]) (hend : bytes.length ≤ 2)
    (run : Trace (Step exampleLimits) oneFileSession history (executing .running)) :
    Trace (Step exampleLimits) oneFileSession ((rewritten bytes [1,b] false,.send 0) ::
      (rewritten bytes [1] false,.send 0) :: (executing .running,.code (inodeOne bytes)) :: history)
      (rewritten bytes [1,b] true) := by
  have hcode : Step exampleLimits (executing .running) (.code (inodeOne bytes))
      (rewritten bytes [1] false) := .code (.inr ⟨_,rfl,rfl⟩) (backed_oneFile 5 bytes)
  have hchunk : Stream.Advances bytes ⟨0,1,[1],none,false⟩
      ⟨0,1,[1] ++ (bytes.drop 1).take 1,none,false⟩ := .chunk 1 fun _ hsize => by cases hsize
  rw [hb] at hchunk
  have hsecond : Step exampleLimits (rewritten bytes [1] false) (.send 0)
      (rewritten bytes [1,b] false) := step_send rfl rfl hchunk
  have hlast : Step exampleLimits (rewritten bytes [1,b] false) (.send 0)
      (rewritten bytes [1,b] true) := step_send rfl rfl (.finish (.inl hend))
  exact ((run.next hcode).next hsecond).next hlast

/-- The part of the file that was sent is written to, and the rest is sent as it was. -/
theorem delivered_under_lock_overwritten : ∃ (s : ServedSession)
    (history : List (ServedSession × SessionEvent)) (st : Stream),
      Trace (Step exampleLimits) oneFileSession history s ∧ s.streams = [st] ∧ st.sent = [1,2] ∧
        s.contents st.ino = [9,2] ∧ Snapshot history st := by
  obtain ⟨history,run,-,hspares⟩ := trace_executing
  have hrun := trace_rewritten [9,2] 2 rfl le_rfl run
  refine ⟨_,_,_,hrun,rfl,rfl,rfl,delivered_under_lock (k := 0) rfl hrun ?_ rfl rfl⟩
  simp only [guarded_cons]
  refine ⟨by simp [SparesRest],by simp [SparesRest],?_,fun m hm => (hspares 0 m hm).sparesRest⟩
  rintro _ ⟨⟩ st hst -
  cases hst
  rfl

/-- A file is read, and before the second of its two bytes is sent, code that a later request
executes writes to it. What is delivered never was in the file. -/
theorem rewritten_while_sent : ¬∀ (limits : Limits) (s₀ s : ServedSession)
    (history : List (ServedSession × SessionEvent)) (k : ℕ) (st : Stream), s₀.holder = none →
      s₀.stray = false → s₀.streams = [] → Trace (Step limits) s₀ history s →
      s.streams[k]? = some st → st.ended = true → Snapshot history st := by
  intro h
  obtain ⟨history,run,hcontents,-⟩ := trace_executing
  obtain ⟨m,hm,holder,hholder,hnumber,-,hsent,-⟩ := h exampleLimits oneFileSession _ _ 0
    ⟨0,1,[1,4],none,true⟩ rfl rfl rfl (trace_rewritten [3,4] 4 rfl le_rfl run) rfl rfl
  have hread : m.1.contents = inodeOne [1,2] := by
    simp only [List.mem_cons] at hm
    rcases hm with rfl | rfl | rfl | hm
    · cases hholder
      cases hnumber
    · cases hholder
      cases hnumber
    · rfl
    · exact hcontents m hm
  rw [hread] at hsent
  exact absurd hsent (by decide)

/-- The session is being deleted while its file is sent: the file has lost its name. -/
def deleting : ServedSession := {(sending [] false).entered .deleteSession with
  world := openedWorld.unlink [⟨[0x66],isName_f⟩]
  backed := fun ino content h => backed_oneFile 0 [1,2] ino content (World.stores_unlink h)}

/-- A file is read whole although the session is deleted before the first byte is sent. -/
theorem deleted_while_sent : ∃ (s : ServedSession)
    (history : List (ServedSession × SessionEvent)) (st : Stream),
      Trace (Step exampleLimits) oneFileSession history s ∧ s.streams = [st] ∧ st.sent = [1,2] ∧
        (∀ content, ¬s.world.root.Stores st.ino content) ∧ Snapshot history st := by
  obtain ⟨history,hget,-,hspares⟩ := trace_sending exampleLimits
  have henter : Step exampleLimits (sending [] false) (.enter .deleteSession) _ := .enter rfl
  have hlater : openedWorld.Later deleting.world :=
    later_unlink openedWorld [⟨[0x66],isName_f⟩]
  have halters : Alters ∅ openedWorld ∅ deleting.world.root :=
    .unlink rfl rfl
  have hunlink : Step exampleLimits ((sending [] false).entered .deleteSession) .call deleting :=
    .call (s := (sending [] false).entered .deleteSession) rfl (by decide) hlater halters
      (fun _ hmade hnot => absurd hmade hnot) deleting.backed fun _ _ _ => rfl
  have hsend : Step exampleLimits deleting (.send 0)
      {deleting with streams := [⟨0,1,[1,2],none,false⟩]} :=
    step_send rfl rfl (.chunk 2 fun _ hsize => by cases hsize)
  have hend : Step exampleLimits {deleting with streams := [⟨0,1,[1,2],none,false⟩]} (.send 0)
      {deleting with streams := [⟨0,1,[1,2],none,true⟩]} :=
    step_send rfl rfl (.finish (.inl le_rfl))
  have run := ((((hget.next henter).next hunlink).next hsend).next hend)
  refine ⟨_,_,_,run,rfl,rfl,fun content hstores => ?_,
    delivered_snapshot (k := 0) rfl run rfl rfl ?_⟩
  · obtain ⟨c,n,hn,-⟩ := stores_dir.mp hstores
    cases hn
  · simp only [guarded_cons]
    exact ⟨by simp [Spares],by simp [Spares],by simp [Spares],by simp [Spares],hspares 0⟩

end ServedSession
end CodeExecutorApi
