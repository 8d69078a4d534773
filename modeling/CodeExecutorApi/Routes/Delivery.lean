import CodeExecutorApi.ContentDisposition
import CodeExecutorApi.Routes.Browsing
import CodeExecutorApi.Routes.Execute
import CodeExecutorApi.Sessions.Openings

/-! The response to an execution as its client reads it: the parts, by their headers and their
bytes, are those of the report. -/
namespace Python.Dict
variable {κ υ : Type*} [DecidableEq κ]

theorem foldl_assign {items : List (κ × υ)} {d : Dict κ υ}
    (h : ((d.items ++ items).map Prod.fst).Nodup) :
    items.foldl (fun d e => d.assign e.1 e.2) d = ⟨d.items ++ items,h⟩ := by
  induction items generalizing d with
  | nil => simp
  | cons e items ih =>
    have hnew : e.1 ∉ d.items.map Prod.fst := by
      rw [List.map_append,List.map_cons] at h
      exact fun hmem => (List.disjoint_of_nodup_append h) hmem List.mem_cons_self
    have hitems : (d.assign e.1 e.2).items = d.items ++ [e] := by
      rw [assign,dif_neg hnew]
    rw [List.foldl_cons,ih (by rw [hitems]; simpa using h)]
    simp [hitems]

/-- Items with different keys are those of the dict made of them. -/
theorem ofItems_eq {items : List (κ × υ)} (h : (items.map Prod.fst).Nodup) :
    ofItems items = ⟨items,h⟩ := foldl_assign (d := ⟨[],by simp⟩) h

end Python.Dict

namespace CodeExecutorApi
open Python Posix Machine

/-- The path that a client finds in the header of a part. -/
def filenameOf (header : Str) : Option Str :=
  (parameters header).getLast?.bind fun w =>
    if (extendedParameter []).isPrefixOf w then unquote (w.drop (extendedParameter []).length)
    else none

/-- A part of a response: its path and its bytes. -/
def partOf (w : World) (payload : Payload) : Option (Str × Bytes) :=
  match filenameOf payload.contentDisposition, w.nodeOf payload.fd with
  | some p, .ok (.file _ content) => some (p,content)
  | _, _ => none

/-- What reading the file at a path comes to, as a function of the tree, once a payload can be made
for the path. -/
def served (t : Node) (p : Str) : Except ReadRefusal Bytes :=
  match find t p with
  | .ok (.file a content) =>
    if a.mode.read = false then .error .osError
    else if hasSurrogate p then .error .unicodeError
    else .ok content
  | _ => .error .osError

section Header
variable {s header : Str} {fieldName : Option Str}

/-- A client reads the path that was written. -/
theorem filenameOf_contentDisposition (hf : ∀ f ∈ fieldName, ∀ c ∈ f, isFilenameChar c = true)
    (h : contentDisposition s fieldName = some header) : filenameOf header = some s := by
  rw [contentDisposition_eq,Option.map_eq_some_iff] at h
  obtain ⟨value,hq,rfl⟩ := h
  have hsplit : parameters ((lit "; ").intercalate ([lit "attachment"] ++ nameParameters fieldName ++
      [filenameParameter (fallback s),extendedParameter value])) = [lit "attachment"] ++
        nameParameters fieldName ++ [filenameParameter (fallback s),extendedParameter value] := by
    refine splitText_intercalate (by simp) (fun w hw hd => ?_) _ le_rfl
    have hno : isTokenChar (lit "; ").head! = false := by decide
    cases (isTokenChar_of_mem_parameters hf hq hw hd).symm.trans hno
  have hprefix : ( extendedParameter []).isPrefixOf (extendedParameter value) = true := by
    rw [List.isPrefixOf_iff_prefix]
    exact ⟨value,by simp [extendedParameter]⟩
  have hdrop : (extendedParameter value).drop (extendedParameter []).length = value := by
    simp [extendedParameter]
  rw [filenameOf,hsplit,List.getLast?_append,List.getLast?_cons_cons,List.getLast?_singleton,
    Option.some_or,Option.bind_some,if_pos hprefix,hdrop]
  exact unquote_quote hq

theorem filename_attachments : ∀ f ∈ some (lit "attachments"), ∀ c ∈ f, isFilenameChar c = true := by
  have hall : (lit "attachments").all isFilenameChar = true := by decide
  rintro f ⟨⟩ c hc
  exact List.all_eq_true.mp hall c hc

end Header

section Read
variable {w : World} {loc : Loc} {a : Attr} {content : Bytes} {prefixLength : ℕ} {st : StatResult}

theorem served_of_get {t : Node} (ht : Stored t) (hget : t.get loc = some (.file a content)) :
    served t (subPathOf loc) =
      if a.mode.read = false then .error .osError
      else if hasSurrogate (subPathOf loc) then .error .unicodeError
      else .ok content := by
  obtain rfl | ⟨loc,c,rfl⟩ := List.eq_nil_or_concat' loc
  · have hroot := ht.root
    rw [Option.some.inj hget] at hroot
    cases hroot
  · rw [served,find_subPathOf (ht.short_of_get hget) hget]

/-- Reading a file that the walk comes to. -/
theorem ends_readSeen (fieldName : Option Str) (henv : w.env.Reliable) (ht : Stored w.root)
    (hseen : Seen prefixLength w.root loc st) (hget : w.root.get loc = some (.file a content)) :
    (Session.readFile Session.rootDirectory (subPathOf loc) fieldName).Ends w fun r v =>
      Session.Still w v ∧ WalkedRead w loc a fieldName r v := by
  obtain rfl | ⟨loc,c,rfl⟩ := List.eq_nil_or_concat' loc
  · have hroot := ht.root
    rw [Option.some.inj hget] at hroot
    cases hroot
  have hopen : OpenAt w.root loc := by
    obtain ⟨b,bs,hdir,hsearch⟩ := hseen.searched loc c List.prefix_rfl
    rw [List.nil_append] at hdir
    exact ⟨b,bs,hdir,hseen.listed loc c b bs List.prefix_rfl hdir,hsearch⟩
  exact ends_readWay fieldName henv (hseen.openWay ht) hopen (ht.short_of_get hget c (by simp)) hget

end Read

section Response
variable {limits : Limits} {host : Host} {w v : World}

theorem nodeOf_still {fd : ℕ} (h : Session.Still w v) (hfd : fd < w.nextFd) :
    v.nodeOf fd = w.nodeOf fd := by
  rw [World.nodeOf,World.nodeOf,h.keeps.locOf fd hfd,h.root]

theorem partOf_still {payload : Payload} (h : Session.Still w v) (hfd : payload.fd < w.nextFd) :
    partOf v payload = partOf w payload := by
  rw [partOf,partOf,nodeOf_still h hfd]

/-- The parts that a client receives. -/
structure Receives (w : World) (payloads : List Payload) (parts : List (Attachment Bytes)) :
    Prop where
  opened : ∀ payload ∈ payloads, payload.fd < w.nextFd
  told : payloads.map (partOf w) = parts.map fun part => some (part.subPath,part.payload)
  accepted : ∀ part ∈ parts, w.env.refuses part.subPath = false

theorem Receives.still {payloads : List Payload} {parts : List (Attachment Bytes)}
    (h : Receives w payloads parts) (hv : Session.Still w v) : Receives v payloads parts := by
  refine ⟨fun payload hp => (h.opened payload hp).trans_le hv.keeps.nextFd,?_,?_⟩
  · rw [← h.told]
    exact List.map_congr_left fun payload hp => partOf_still hv (h.opened payload hp)
  · rw [hv.keeps.env]
    exact h.accepted

theorem Receives.concat {payloads : List Payload} {parts : List (Attachment Bytes)} {p : Str}
    {payload : Payload} {content : Bytes} (h : Receives w payloads parts)
    (hfd : payload.fd < w.nextFd) (hp : partOf w payload = some (p,content))
    (haccepted : w.env.refuses p = false) :
    Receives w (payloads ++ [payload]) (parts ++ [⟨p,content⟩]) := by
  refine ⟨?_,by rw [List.map_append,List.map_append,h.told]; simp [hp],?_⟩
  · simpa [or_imp,forall_and] using ⟨h.opened,hfd⟩
  · simpa [or_imp,forall_and] using ⟨h.accepted,haccepted⟩

/-- The loop over the changed files ends: with the parts that it has opened, or at a file that may be
read and has a path for which no payload is made. -/
inductive LoopEnds (w : World) (subPaths : List Str) (s : Split Bytes) :
    Except (Exc AppError) (List Payload × List Str) → World → Prop
  | all {taken v} (receives : Receives v taken s.payloads) :
    LoopEnds w subPaths s (.ok (taken,s.omittedFiles)) v
  | refused {p v} (changed : p ∈ subPaths) (refuses : w.env.refuses p = true)
    (readable : served w.root p ≠ .error .osError) : LoopEnds w subPaths s (.error .valueError) v

theorem LoopEnds.cons {p : Str} {subPaths : List Str} {s : Split Bytes}
    {r : Except (Exc AppError) (List Payload × List Str)} {u : World} (hv : Session.Still w v)
    (h : LoopEnds v subPaths s r u) : LoopEnds w (p :: subPaths) s r u := by
  cases h with
  | all receives => exact .all receives
  | refused changed refuses readable =>
    exact .refused (List.mem_cons_of_mem _ changed) (hv.keeps.env ▸ refuses) (hv.root ▸ readable)

variable (limits) in
/-- The loop over the changed files opens what the split of the report attaches, and omits the rest. -/
theorem ends_openPayloads_split {subPaths : List Str} {payloads : List Payload} {s : Split Bytes}
    {prefixLength : ℕ} (henv : w.env.Reliable) (ht : Stored w.root)
    (hseen : ∀ p ∈ subPaths, ∃ loc st, Seen prefixLength w.root loc st ∧ p = subPathOf loc)
    (hopen : Receives w payloads s.payloads) :
    (openPayloads limits Session.rootDirectory payloads s.omittedFiles subPaths).Ends w fun r v =>
      Session.Still w v ∧ LoopEnds w subPaths
        (subPaths.foldl (splitFile (served w.root) limits.maxResultAttachments) s) r v := by
  induction subPaths generalizing w payloads s with
  | nil => exact ⟨⟨rfl,.refl _ _⟩,.all hopen⟩
  | cons p subPaths ih =>
    have hlength : payloads.length = s.payloads.length := by
      have := congrArg List.length hopen.told
      simpa using this
    have hnext {v : World} (hv : Session.Still w v) {z : Split Bytes} {payloads' : List Payload}
        (hopen' : Receives v payloads' z.payloads) :
        (openPayloads limits Session.rootDirectory payloads' z.omittedFiles subPaths).Ends v
          fun r u => Session.Still w u ∧ LoopEnds w (p :: subPaths)
            (subPaths.foldl (splitFile (served w.root) limits.maxResultAttachments) z) r u := by
      have hrest := ih (hv.keeps.env ▸ henv) (hv.root ▸ ht)
        (fun q hq => hv.root ▸ hseen q (List.mem_cons_of_mem _ hq)) hopen'
      rw [hv.root] at hrest
      exact hrest.mono fun r u h => ⟨hv.trans h.1,h.2.cons hv⟩
    rw [List.foldl_cons]
    unfold openPayloads
    rw [hlength]
    split_ifs with hfull
    · rw [splitFile,if_pos hfull]
      exact hnext ⟨rfl,.refl _ _⟩ (z := ⟨_,_⟩) hopen
    rw [splitFile,if_neg hfull]
    obtain ⟨loc,st,hloc,rfl⟩ := hseen p List.mem_cons_self
    obtain ⟨n,hget,-,hreg⟩ := hloc.file
    cases n with
    | dir | symlink | special => cases hreg
    | file a content =>
      have hserved := served_of_get ht hget
      refine Program.Ends.bind (R := fun r v => ∃ outcome, r = .ok outcome ∧ Session.Still w v ∧
        WalkedRead w loc a (some (lit "attachments")) outcome v) ?_ ?_ ?_
      · exact Program.ends_attempt.mpr ((ends_readSeen _ henv ht hloc hget).mono
          fun r v hv => ⟨r,rfl,hv⟩)
      · rintro outcome v ⟨_,⟨⟩,hv,houtcome⟩
        cases houtcome with
        | @opened payload _ readable accepted encodable header has =>
          have hpart : partOf v payload = some (subPathOf loc,content) := by
            have hnode : v.nodeOf payload.fd = .ok (.file a content) :=
              Os.nodeOf_eq has (by rw [hv.root,hget])
            rw [partOf,filenameOf_contentDisposition filename_attachments header,hnode]
          rw [if_neg (by simp [readable]),if_neg (by simp [encodable])] at hserved
          rw [hserved]
          exact hnext hv (z := ⟨_,_⟩)
            ((hopen.still hv).concat has.lt hpart (hv.keeps.env ▸ accepted))
        | locked unreadable =>
          rw [if_pos unreadable] at hserved
          rw [hserved]
          exact hnext hv (z := ⟨_,_⟩) (hopen.still hv)
        | surrogate readable accepted unencodable =>
          rw [if_neg (by simp [readable]),if_pos unencodable] at hserved
          rw [hserved]
          exact hnext hv (z := ⟨_,_⟩) (hopen.still hv)
        | refused readable refuses =>
          refine ⟨hv,.refused List.mem_cons_self refuses ?_⟩
          rw [hserved,if_neg (by simp [readable])]
          split_ifs <;> simp
      · rintro e v ⟨_,h,_⟩
        cases h

theorem ends_walkSession (t : SessionTree) (hroot : w.root = t.root) (phase : Phase) :
    (during phase (walkSession limits)).Ends w fun r v => ∀ stats, r = .ok stats →
      v.env = w.env ∧ v.root = w.root ∧ stats = t.files limits.prefixLength := by
  refine Program.ends_mapError.mpr ?_
  refine Program.Ends.bind (R := fun _ v => v.env = w.env ∧ v.root = w.root) ⟨rfl,rfl⟩ ?_
    fun e v _ stats h => by cases h
  rintro _ v ⟨hvenv,hvroot⟩
  refine Program.Ends.bind (R := fun r u => u = v ∧
    r = .ok (.ofItems (iterSessionFiles limits.prefixLength v.root))) ⟨rfl,rfl⟩ ?_ ?_
  · rintro _ u ⟨rfl,⟨⟩⟩
    refine Program.Ends.bind (R := fun _ x => x.env = u.env ∧ x.root = u.root) ⟨rfl,rfl⟩ ?_
      fun e v _ stats h => by cases h
    rintro _ x ⟨hxenv,hxroot⟩ stats ⟨⟩
    refine ⟨hxenv.trans hvenv,hxroot.trans hvroot,?_⟩
    rw [hvroot,hroot]
    exact Dict.ofItems_eq _
  · rintro e u ⟨-,h⟩
    cases h

theorem ends_runContainer_root (w : World) : (runContainer host).Ends w fun r v =>
    ∀ result, r = .ok result → v.env = w.env ∧ v.root = host.code w.root := by
  have hcall (outcome : Option Errno) (u : World) :
      (during .start (hostCall outcome)).Ends u fun _ v => u = v := by
    refine Program.ends_mapError.mpr ?_
    unfold hostCall
    split <;> rfl
  have hcheckpoint (phase : Phase) (u : World) :
      (during phase (Os.checkpoint : Api Unit)).Ends u fun _ v => v.env = u.env ∧ v.root = u.root :=
    ⟨rfl,rfl⟩
  refine Program.Ends.bind (hcall _ w) ?_ fun e v _ result h => by cases h
  rintro _ _ rfl
  refine Program.Ends.bind (R := fun r v => v.env = w.env ∧ ∃ ended, r = .ok ended ∧
    (ended = .ok () → v.root = host.code w.root)) (Program.ends_attempt.mpr ?_) ?_
    fun e v ⟨_,_,h,_⟩ => by cases h
  · refine Program.Ends.bind (hcheckpoint .start w) ?_ fun e v h => ⟨h.1,_,rfl,fun he => by cases he⟩
    rintro _ v ⟨henv,hroot⟩
    refine Program.Ends.bind (hcall host.start v) ?_ fun e u hu =>
      ⟨by rw [← hu,henv],_,rfl,fun he => by cases he⟩
    rintro _ _ rfl
    refine Program.Ends.bind (R := fun _ u => u.env = w.env ∧ u.root = host.code w.root) ?_ ?_
      fun e u h => ⟨h.1,_,rfl,fun he => by cases he⟩
    · exact ⟨henv,by rw [← hroot]; rfl⟩
    · rintro _ u ⟨huenv,huroot⟩
      refine (hcheckpoint .running u).mono fun r x ⟨hxenv,hxroot⟩ => ?_
      exact ⟨hxenv.trans huenv,r,rfl,fun _ => hxroot.trans huroot⟩
  · rintro ended v ⟨henv,_,⟨⟩,hroot⟩
    refine Program.Ends.bind (R := fun _ u => u.env = v.env ∧ u.root = v.root) ?_ ?_
      fun e u _ result h => by cases h
    · refine Program.ends_mapError.mpr ?_
      refine Program.Ends.bind (R := fun _ u => u.env = v.env ∧ u.root = v.root) ⟨rfl,rfl⟩ ?_
        fun _ _ h => h
      rintro _ u hu
      split <;> exact hu
    · rintro output u ⟨huenv,huroot⟩
      cases ended with
      | ok _ =>
        rintro result ⟨⟩
        exact ⟨huenv.trans henv,huroot.trans (hroot rfl)⟩
      | error fault => rintro result ⟨⟩

theorem ends_await (wait : Wait) (e : AppError) (phase : Phase) (w : World) :
    (during phase (await wait e)).Ends w fun _ v => w = v := by
  refine Program.ends_mapError.mpr ?_
  unfold await
  split <;> rfl

/-- A response to an execution is the report on the trees before and after it: what it names as
deleted and as omitted, and the parts that its client receives. -/
theorem ends_execute_report (t t' : SessionTree) (henv : w.env.Reliable) (hroot : w.root = t.root)
    (hran : host.code w.root = t'.root) :
    (execute limits Session.rootDirectory host).Ends w fun r v => ∀ response, r = .ok response →
      v.env = w.env ∧ v.root = t'.root ∧
        ∃ result payloads,
          let told := report (served t'.root) limits.maxResultAttachments
            (t.files limits.prefixLength) (t'.files limits.prefixLength)
          response = .mixed result told.deletedFiles told.omittedFiles payloads ∧
            Receives v payloads told.attachments := by
  obtain ⟨_,ht⟩ := t
  cases hroot
  obtain ⟨_,hcode⟩ := t'
  cases hran
  refine Program.Ends.bind (ends_await host.slot _ _ w) ?_ fun e v _ response h => by cases h
  rintro _ _ rfl
  refine Program.Ends.bind (ends_walkSession ⟨w.root,ht⟩ rfl _) ?_ fun e v _ response h => by cases h
  rintro before v hbefore
  obtain ⟨hvenv,hvroot,rfl⟩ := hbefore _ rfl
  refine Program.Ends.bind (ends_runContainer_root v) ?_ fun e u _ response h => by cases h
  rintro result u hu
  obtain ⟨huenv,huroot⟩ := hu _ rfl
  rw [hvroot] at huroot
  refine Program.Ends.bind (ends_walkSession ⟨host.code w.root,hcode⟩ huroot _) ?_
    fun e x _ response h => by cases h
  rintro after x hafter
  obtain ⟨hxenv,hxroot,rfl⟩ := hafter _ rfl
  rw [huroot] at hxroot
  have henv' : x.env = w.env := hxenv.trans (huenv.trans hvenv)
  have hseen : ∀ p ∈ (collectChanges (.init (SessionTree.files limits.prefixLength ⟨w.root,ht⟩))
      (SessionTree.files limits.prefixLength ⟨host.code w.root,hcode⟩)).1,
      ∃ loc st, Seen limits.prefixLength x.root loc st ∧ p = subPathOf loc := by
    intro p hp
    obtain ⟨st,hst,-⟩ := (mem_changedFiles _ _ p).mp hp
    obtain ⟨loc,hloc,hp⟩ := (mem_iterSessionFiles hcode).mp (Dict.get_eq_some_iff.mp hst)
    exact ⟨loc,st,hxroot ▸ hloc,hp⟩
  have hnone : Receives x [] (Split.payloads ⟨[],[]⟩) := ⟨by simp,rfl,by simp⟩
  have hloop := ends_openPayloads_split limits (henv' ▸ henv) (hxroot ▸ hcode) hseen hnone
  rw [hxroot] at hloop
  refine Program.Ends.bind (R := fun r y => y.env = w.env ∧ y.root = host.code w.root ∧
    ∀ out, r = .ok out →
      let split := splitChanged (served (host.code w.root)) limits.maxResultAttachments
        (collectChanges (.init (SessionTree.files limits.prefixLength ⟨w.root,ht⟩))
          (SessionTree.files limits.prefixLength ⟨host.code w.root,hcode⟩)).1
      Receives y out.1 split.payloads ∧ out.2 = split.omittedFiles) ?_ ?_ ?_
  · refine Program.ends_mapError.mpr (hloop.mono ?_)
    rintro r y ⟨hy,hopens⟩
    refine ⟨hy.keeps.env.trans henv',hy.root.trans hxroot,fun out hout => ?_⟩
    cases hopens with
    | all receives =>
      cases hout
      exact ⟨receives,rfl⟩
    | refused => cases hout
  · rintro out y ⟨hyenv,hyroot,hout⟩
    obtain ⟨hreceives,homitted⟩ := hout _ rfl
    rintro response ⟨⟩
    exact ⟨hyenv,hyroot,result,out.1,by rw [homitted]; rfl,hreceives⟩
  · rintro e y - response ⟨⟩

end Response

end CodeExecutorApi
