import CodeExecutorApi.Machine.Runs
import CodeExecutorApi.Routes.Answers

/-! The files API as a map from places to files. What a GET answers follows from the latest
successful request on the same place, and where there is none from the initial tree. -/
namespace CodeExecutorApi
open Python Posix Machine

/-- The requests served so far, the latest first, each with the state it was served in. -/
abbrev History := List (World × FileRequest)

def subWay (q : Str) : Loc :=
  match normalizeSubPath q with
  | .ok p => way (split p)
  | .error _ => []

/-- The way on which a request may change entries. -/
def FileRequest.way : FileRequest → Loc
  | .get _ => []
  | .put q _ | .delete q => subWay q

/-- The request goes through the entry `c` of the directory at `loc`. -/
def Passes (loc : Loc) (c : Name) (r : FileRequest) : Prop := loc ++ [c] <+: r.way

/-- The place is a parent directory of what a PUT writes. -/
def IsParent (loc : Loc) (r : FileRequest) : Prop :=
  ∃ q content p, r = .put q content ∧ normalizeSubPath q = .ok p ∧
    loc <+: way (split p).dropLast

/-- What has become of an entry while requests were served on other places: a directory keeps its
entries but for those that requests went through, and a missing entry may have been made the
directory that a PUT needed. -/
structure Since (loc : Loc) (later : History) (o o' : Option Node) : Prop where
  dir : ∀ a es, o = some (.dir a es) → ∃ a' es', o' = some (.dir a' es') ∧
    ∀ e, (∀ r ∈ later, ¬Passes loc e.1 r.2) → (e ∈ es' ↔ e ∈ es)
  other : ∀ n, o = some n → n.isDir = false → o' = some n
  missing : o = none → o' = none ∨ (∃ r ∈ later, IsParent loc r.2) ∧
    ∃ a es, o' = some (.dir a es) ∧ ∀ e ∈ es, ∃ r ∈ later, Passes loc e.1 r.2

namespace Since
variable {loc : Loc} {later later' : History} {o o' o'' : Option Node}

theorem refl (loc : Loc) (later : History) (o : Option Node) : Since loc later o o :=
  ⟨fun a es h => ⟨a,es,h,fun _ _ => Iff.rfl⟩,fun _ h _ => h,.inl⟩

theorem trans (h : Since loc later o o') (h' : Since loc later' o' o'') :
    Since loc (later' ++ later) o o'' := by
  refine ⟨fun a es ho => ?_,fun n ho hn => h'.other n (h.other n ho hn) hn,fun ho => ?_⟩
  · obtain ⟨a',es',ho',hmem⟩ := h.dir a es ho
    obtain ⟨a'',es'',ho'',hmem'⟩ := h'.dir a' es' ho'
    refine ⟨a'',es'',ho'',fun e he => ?_⟩
    exact (hmem' e fun r hr => he r (List.mem_append_left _ hr)).trans
      (hmem e fun r hr => he r (List.mem_append_right _ hr))
  · rcases h.missing ho with ho' | ⟨⟨r,hr,hparent⟩,a,es,ho',hpass⟩
    · rcases h'.missing ho' with ho'' | ⟨⟨r,hr,hparent⟩,a,es,ho'',hpass⟩
      · exact .inl ho''
      · refine .inr ⟨⟨r,List.mem_append_left _ hr,hparent⟩,a,es,ho'',fun e he => ?_⟩
        obtain ⟨s,hs,hp⟩ := hpass e he
        exact ⟨s,List.mem_append_left _ hs,hp⟩
    · obtain ⟨a',es',ho'',hmem⟩ := h'.dir a es ho'
      refine .inr ⟨⟨r,List.mem_append_right _ hr,hparent⟩,a',es',ho'',fun e he => ?_⟩
      by_cases hlater : ∃ s ∈ later', Passes loc e.1 s.2
      · obtain ⟨s,hs,hp⟩ := hlater
        exact ⟨s,List.mem_append_left _ hs,hp⟩
      · have hold := (hmem e fun s hs hp => hlater ⟨s,hs,hp⟩).mp he
        obtain ⟨s,hs,hp⟩ := hpass e hold
        exact ⟨s,List.mem_append_right _ hs,hp⟩

/-- The same request in two parts. -/
theorem trans_same {e : World × FileRequest} (h : Since loc [e] o o') (h' : Since loc [e] o' o'') :
    Since loc [e] o o'' := by
  have hmem (r : World × FileRequest) : r ∈ [e] ++ [e] ↔ r ∈ [e] := by simp
  obtain ⟨hdir,hother,hmissing⟩ := h.trans h'
  simp only [hmem] at hdir hmissing
  exact ⟨hdir,hother,hmissing⟩

end Since

section Ways
variable {q p : Str} {k : Loc}

theorem subWay_eq (hq : normalizeSubPath q = .ok p) : subWay q = way (split p) := by
  rw [subWay,hq]

theorem way_dropLast_prefix (p : Str) : way (split p).dropLast <+: way (split p) := by
  conv_rhs => rw [Session.split_eq p]
  exact way_prefix_append _ _

end Ways

section Effects
variable {w : World} {r : FileRequest} {loc k : Loc} {c : Name} {t t' : Node} {d : Loc}

/-- Making directories on the way to `d`. -/
theorem Since.of_grown (h : Grown Session.dirMode d t t') (hway : d <+: r.way)
    (hparent : k <+: d → IsParent k r) : Since k [(w,r)] (t.get k) (t'.get k) := by
  have hoff (c : Name) (hc : ∀ e ∈ [(w,r)], ¬Passes k c e.2) : ¬k ++ [c] <+: d := fun hp =>
    hc (w,r) (List.mem_singleton_self _) (hp.trans hway)
  by_cases hk : k <+: d
  · refine ⟨fun a es hget => ?_,(h.above k hk).other,fun hnone => ?_⟩
    · obtain ⟨a',es',hget',hkept⟩ := (h.above k hk).dir a es hget
      exact ⟨a',es',hget',fun e he => hkept.mem e (hoff e.1 he)⟩
    · rcases (h.above k hk).missing hnone with hnone' | ⟨a,es,hget,hkept⟩
      · exact .inl hnone'
      · refine .inr ⟨⟨(w,r),List.mem_singleton_self _,hparent hk⟩,a,es,hget,fun e he => ?_⟩
        by_contra hno
        have hc : ∀ s ∈ [(w,r)], ¬Passes k e.1 s.2 := fun s hs hp => hno ⟨s,hs,hp⟩
        exact List.not_mem_nil ((hkept.mem e (hoff e.1 hc)).mp he)
  · rw [h.beside k hk]
    exact .refl _ _ _

/-- Changing an entry that was and is no directory. -/
theorem Since.of_relinked {o : Option Node} (h : Relinked loc c o t t')
    (hold : ∀ n, t.get (loc ++ [c]) = some n → n.isDir = false)
    (hnew : ∀ n, o = some n → n.isDir = false) (hway : loc ++ [c] <+: r.way)
    (hk : k ≠ loc ++ [c]) : Since k [(w,r)] (t.get k) (t'.get k) := by
  by_cases hloc : k <+: loc
  · obtain ⟨a,es,a',es',hget,hget',hkept⟩ := h.get_above hloc
    rw [hget,hget']
    refine ⟨fun b bs hb => ?_,fun n hn hdir => ?_,fun hn => (nomatch hn)⟩
    · cases hb
      refine ⟨a',es',rfl,fun e he => hkept.mem e fun hp => ?_⟩
      exact he (w,r) (List.mem_singleton_self _) (hp.trans hway)
    · cases hn
      cases hdir
  · rw [h.get_off hold hnew hk hloc]
    exact .refl _ _ _

/-- A request that does not succeed on a place changes it only as much as its way. -/
theorem Effect.since {done : Bool} (h : Effect r done t t')
    (hmiss : ¬(done = true ∧ subPlace r.subPath = some k)) :
    Since k [(w,r)] (t.get k) (t'.get k) := by
  cases h with
  | unchanged => exact .refl _ _ _
  | @grown q content p _ _ hq hg =>
    refine .of_grown hg ?_ fun hk => ⟨q,content,p,rfl,hq,hk⟩
    rw [FileRequest.way,subWay_eq hq]
    exact way_dropLast_prefix p
  | @put q content p loc c b _ t₁ _ hq hplace hg hmode hold hrel =>
    have hway : loc ++ [c] <+: (FileRequest.put q content).way := by
      simp [FileRequest.way,subWay_eq hq,way_of_place hplace]
    obtain ⟨d,c',hd,hc',heq⟩ := Session.place_split hplace
    obtain ⟨rfl,hcc⟩ := List.append_inj' heq rfl
    have hk : k ≠ loc ++ [c] := by
      rintro rfl
      exact hmiss ⟨rfl,by rw [FileRequest.subPath,subPlace_eq hq,hplace]⟩
    refine Since.trans_same (.of_grown hg ((List.prefix_append loc [c]).trans hway) ?_)
      (.of_relinked hrel hold (fun n hn => by cases hn; rfl) hway hk)
    exact fun hk => ⟨q,content,p,rfl,hq,by rwa [way_of_place hd]⟩
  | @delete q p loc c n _ _ hq hplace hold hfile hrel =>
    have hway : loc ++ [c] <+: (FileRequest.delete q).way := by
      simp [FileRequest.way,subWay_eq hq,way_of_place hplace]
    have hk : k ≠ loc ++ [c] := by
      rintro rfl
      exact hmiss ⟨rfl,by rw [FileRequest.subPath,subPlace_eq hq,hplace]⟩
    refine .of_relinked hrel (fun m hm => ?_) (fun m hm => by cases hm) hway hk
    cases hold.symm.trans hm
    exact hfile

/-- Nothing changes beside the way. -/
theorem Effect.apart {done : Bool} (h : Effect r done t t')
    (hmiss : ¬(done = true ∧ subPlace r.subPath = some k)) (hpass : ∀ c, ¬Passes k c r)
    (hparent : ¬IsParent k r) : t'.get k = t.get k := by
  have hnot {loc : Loc} {c : Name} (hway : loc ++ [c] <+: r.way) : ¬k <+: loc := by
    rintro ⟨q,rfl⟩
    cases q with
    | nil => exact hpass c (by rwa [List.append_nil] at hway)
    | cons d q => exact hpass d (List.IsPrefix.trans ⟨q ++ [c],by simp⟩ hway)
  cases h with
  | unchanged => rfl
  | @grown q content p _ _ hq hg =>
    exact hg.beside k fun hk => hparent ⟨q,content,p,rfl,hq,hk⟩
  | @put q content p loc c b _ t₁ _ hq hplace hg hmode hold hrel =>
    have hk : k ≠ loc ++ [c] := by
      rintro rfl
      exact hmiss ⟨rfl,by rw [FileRequest.subPath,subPlace_eq hq,hplace]⟩
    have hloc : ¬k <+: loc := hnot (c := c) (by
      simp [FileRequest.way,subWay_eq hq,way_of_place hplace])
    rw [hrel.get_off hold (fun n hn => by cases hn; rfl) hk hloc,hg.beside k hloc]
  | @delete q p loc c n _ _ hq hplace hold hfile hrel =>
    have hk : k ≠ loc ++ [c] := by
      rintro rfl
      exact hmiss ⟨rfl,by rw [FileRequest.subPath,subPlace_eq hq,hplace]⟩
    have hloc : ¬k <+: loc := hnot (c := c) (by
      simp [FileRequest.way,subWay_eq hq,way_of_place hplace])
    refine hrel.get_off (fun m hm => ?_) (fun m hm => by cases hm) hk hloc
    cases hold.symm.trans hm
    exact hfile

/-- A PUT that succeeds leaves the body at its place. -/
theorem Effect.put_get {q : Str} {content : Content} (h : Effect (.put q content) true t t')
    (hk : subPlace q = some k) : ∃ b, t'.get k = some (.file b content.body) := by
  cases h with
  | @put _ _ p loc c b _ t₁ _ hq hplace hg hmode hold hrel =>
    rw [subPlace_eq hq,hplace] at hk
    cases hk
    exact ⟨b,hrel.get_entry []⟩

theorem Effect.delete_get {q : Str} (h : Effect (.delete q) true t t') (hk : subPlace q = some k) :
    t'.get k = none := by
  cases h with
  | @delete _ p loc c n _ _ hq hplace hold hfile hrel =>
    rw [subPlace_eq hq,hplace] at hk
    cases hk
    exact hrel.get_entry []

theorem Effect.traversable {done : Bool} (h : Effect r done t t') (ht : Traversable t) :
    Traversable t' := by
  have hshort {loc : Loc} {c : Name} {p : Str} (hplace : place (split p) = some (loc ++ [c])) :
      Short loc ∧ c.bytes.length ≤ nameMax := by
    have h := short_way (split p)
    rw [way_of_place hplace] at h
    exact ⟨fun d hd => h d (List.mem_append_left _ hd),h c (by simp)⟩
  cases h with
  | unchanged => exact ht
  | grown hq hg => exact ht.grown hg (short_way _)
  | put hq hplace hg hmode hold hrel =>
    exact (ht.grown hg (hshort hplace).1).relinked hrel (fun n hn => by cases hn; rfl)
      (hshort hplace).2
  | delete hq hplace hold hfile hrel => exact ht.relinked hrel nofun (hshort hplace).2

end Effects

section Runs
variable (maxFileSize : ℕ)

def fileStep (w : World) (r : FileRequest) : Option World := some (r.next maxFileSize w)

/-- A successful PUT or DELETE of the place. -/
def Hits (loc : Loc) (e : World × FileRequest) : Prop :=
  e.2.reply maxFileSize e.1 = .noContent ∧ subPlace e.2.subPath = some loc

/-- An answer to a GET after a history that began with the tree `t₀`: it is the one that the latest
request to succeed on its place gives, or the initial tree. -/
structure Follows (t₀ : Node) (h : History) (q : Str) (a : Reply) : Prop where
  invalid : ∀ e, pathOf q = .error e → a = .error 400 e.message
  nowhere : ∀ p, pathOf q = .ok p → subPlace q = none → a = notFound
  put : ∀ loc later w q' content earlier, subPlace q = some loc →
    h = later ++ (w,.put q' content) :: earlier → Hits maxFileSize loc (w,.put q' content) →
    (∀ e ∈ later, ¬Hits maxFileSize loc e) → a = .body content.body
  deleted : ∀ p loc later w q' earlier, pathOf q = .ok p → subPlace q = some loc →
    h = later ++ (w,.delete q') :: earlier → Hits maxFileSize loc (w,.delete q') →
    (∀ e ∈ later, ¬Hits maxFileSize loc e) → ∃ o, Since loc later none o ∧ a = shown p o
  initial : ∀ p loc, pathOf q = .ok p → subPlace q = some loc →
    (∀ e ∈ h, ¬Hits maxFileSize loc e) → ∃ o, Since loc h (t₀.get loc) o ∧ a = shown p o

/-- What one request on another place does to the answer of a GET: nothing beside its way, and on
its way only what `Since` allows. -/
structure Framed (e : World × FileRequest) (q : Str) (a a' : Reply) : Prop where
  nowhere : subPlace q = none → a' = a
  beside : ∀ loc, subPlace q = some loc → subPlace e.2.subPath ≠ some loc →
    (∀ c, ¬Passes loc c e.2) → ¬IsParent loc e.2 → a' = a
  above : ∀ p loc, pathOf q = .ok p → subPlace q = some loc → subPlace e.2.subPath ≠ some loc →
    ∃ o o', Since loc [e] o o' ∧ a = shown p o ∧ a' = shown p o'

variable {maxFileSize} {w₀ w : World} {h : History} {q : Str}

/-- No request of the history leaves its temporary file behind. -/
def Kept (h : History) : Prop := Guarded (fun w r => ¬r.Leaks w) h

theorem reachable (henv : w₀.env.Reliable) (ht : Traversable w₀.root)
    (run : Run (fileStep maxFileSize) w₀ h w) (hkept : Kept h) :
    w.env = w₀.env ∧ Traversable w.root := by
  induction run with
  | start => exact ⟨rfl,ht⟩
  | @next h w r w' _ taken ih =>
    cases taken
    obtain ⟨hr,hkept⟩ := (guarded_cons _ _ _ _).mp hkept
    obtain ⟨hw,htw⟩ := ih hkept
    obtain ⟨heffect,henv'⟩ := request_effect maxFileSize r (hw ▸ henv) hr htw
    exact ⟨henv'.trans hw,heffect.traversable htw⟩

theorem reply_get (henv : w.env.Reliable) (ht : Traversable w.root) :
    (FileRequest.get q).reply maxFileSize w = answer w.env.refuses w.root q :=
  (Session.serve_get henv ht).1

/-- As long as no request hits a place, it changes as `Since` says. -/
theorem since_of_run (henv : w₀.env.Reliable) (ht : Traversable w₀.root)
    (run : Run (fileStep maxFileSize) w₀ h w) (hkept : Kept h) {loc : Loc}
    (hmiss : ∀ e ∈ h, ¬Hits maxFileSize loc e) : Since loc h (w₀.root.get loc) (w.root.get loc) := by
  induction run with
  | start => exact .refl _ _ _
  | @next h w r w' run taken ih =>
    cases taken
    obtain ⟨hr,hkept⟩ := (guarded_cons _ _ _ _).mp hkept
    obtain ⟨hw,htw⟩ := reachable henv ht run hkept
    have hfirst := ih hkept fun e he => hmiss e (List.mem_cons_of_mem _ he)
    have heffect := (request_effect maxFileSize r (hw ▸ henv) hr htw).1
    refine hfirst.trans (heffect.since (w := w) fun hhit => ?_)
    exact hmiss (w,r) List.mem_cons_self ⟨of_decide_eq_true hhit.1,hhit.2⟩

theorem latest_hit (maxFileSize : ℕ) (loc : Loc) (h : History) :
    (∀ e ∈ h, ¬Hits maxFileSize loc e) ∨
    ∃ later e earlier, h = later ++ e :: earlier ∧ Hits maxFileSize loc e ∧
      ∀ e ∈ later, ¬Hits maxFileSize loc e := by
  induction h with
  | nil => exact .inl nofun
  | cons e h ih =>
    by_cases he : Hits maxFileSize loc e
    · exact .inr ⟨[],e,h,rfl,he,nofun⟩
    · rcases ih with hno | ⟨later,e',earlier,rfl,hhit,hlater⟩
      · exact .inl (List.forall_mem_cons.mpr ⟨he,hno⟩)
      · exact .inr ⟨e :: later,e',earlier,rfl,hhit,List.forall_mem_cons.mpr ⟨he,hlater⟩⟩

theorem shown_ne_internal (p : Str) (o : Option Node) : shown p o ≠ .internalServerError := by
  unfold shown
  split <;> exact nofun

theorem answer_refused {refuses : Str → Bool} {t : Node} (h : refused refuses t q = true) :
    answer refuses t q = .internalServerError := by
  unfold answer
  cases hp : pathOf q with
  | error e =>
    rw [refused,hp] at h
    cases h
  | ok p =>
    dsimp only
    rw [h]
    rfl

theorem answer_shown {refuses : Str → Bool} {t : Node} {p : Str} (hp : pathOf q = .ok p)
    (h : refused refuses t q = false) : answer refuses t q = shown p ((subPlace q).bind t.get) := by
  rw [answer,hp]
  dsimp only
  rw [h]
  rfl

theorem Kept.of_append {later earlier : History} (h : Kept (later ++ earlier)) :
    Kept later ∧ Kept earlier :=
  ⟨fun e he => h e (List.mem_append_left _ he),fun e he => h e (List.mem_append_right _ he)⟩

/-- At the end of a history a GET is answered by what the history left, unless its path is refused
there. -/
theorem follows_iff (henv : w₀.env.Reliable) (ht : Traversable w₀.root)
    (run : Run (fileStep maxFileSize) w₀ h w) (hkept : Kept h) :
    Follows maxFileSize w₀.root h q (answer w.env.refuses w.root q) ↔
      refused w.env.refuses w.root q = false := by
  constructor
  · intro hclaim
    by_contra href
    rw [Bool.not_eq_false] at href
    rw [answer_refused href] at hclaim
    cases hp : pathOf q with
    | error e => cases hclaim.invalid e hp
    | ok p =>
      cases hloc : subPlace q with
      | none => cases hclaim.nowhere p hp hloc
      | some loc =>
        rcases latest_hit maxFileSize loc h with
          hno | ⟨later,⟨v,r⟩,earlier,rfl,hhit,hlater⟩
        · obtain ⟨o,_,ho⟩ := hclaim.initial p loc hp hloc hno
          exact shown_ne_internal p o ho.symm
        · cases r with
          | put q' content => cases hclaim.put loc later v q' content earlier hloc rfl hhit hlater
          | delete q' =>
            obtain ⟨o,_,ho⟩ := hclaim.deleted p loc later v q' earlier hp hloc rfl hhit hlater
            exact shown_ne_internal p o ho.symm
          | get q' =>
            obtain ⟨x,hrun,_,_⟩ := run.cut
            obtain ⟨-,hearlier⟩ := hkept.of_append
            obtain ⟨-,hearlier⟩ := (guarded_cons _ _ _ _).mp hearlier
            obtain ⟨hv,htv⟩ := reachable henv ht hrun hearlier
            have hreply : (FileRequest.get q').reply maxFileSize v = answer v.env.refuses v.root q' :=
              reply_get (hv ▸ henv) htv
            exact answer_ne_noContent _ v.root q' (hreply.symm.trans hhit.1)
  · intro href
    have hshown {p : Str} (hp : pathOf q = .ok p) := answer_shown hp href
    refine ⟨fun e he => ?_,fun p hp hloc => ?_,?_,?_,fun p loc hp hloc hno => ?_⟩
    · rw [answer,he]
    · rw [hshown hp,hloc]
      rfl
    · rintro loc later v q' content earlier hloc rfl hhit hlater
      obtain ⟨x,hrun,htaken,hrest⟩ := run.cut
      cases htaken
      obtain ⟨hkept',hearlier⟩ := hkept.of_append
      obtain ⟨hr,hearlier⟩ := (guarded_cons _ _ _ _).mp hearlier
      obtain ⟨hv,htv⟩ := reachable henv ht hrun hearlier
      obtain ⟨heffect,henv'⟩ := request_effect maxFileSize (.put q' content) (hv ▸ henv) hr htv
      rw [decide_eq_true hhit.1] at heffect
      obtain ⟨b,hb⟩ := heffect.put_get hhit.2
      have hsince := since_of_run (henv' ▸ hv ▸ henv) (heffect.traversable htv) hrest hkept' hlater
      have hp : ∃ p, pathOf q = .ok p := by
        unfold subPlace at hloc
        split at hloc
        · exact ⟨_,‹_›⟩
        · cases hloc
      obtain ⟨p,hp⟩ := hp
      rw [hshown hp,hloc,Option.bind_some,hsince.other _ hb rfl]
      rfl
    · rintro p loc later v q' earlier hp hloc rfl hhit hlater
      obtain ⟨x,hrun,htaken,hrest⟩ := run.cut
      cases htaken
      obtain ⟨hkept',hearlier⟩ := hkept.of_append
      obtain ⟨hr,hearlier⟩ := (guarded_cons _ _ _ _).mp hearlier
      obtain ⟨hv,htv⟩ := reachable henv ht hrun hearlier
      obtain ⟨heffect,henv'⟩ := request_effect maxFileSize (.delete q') (hv ▸ henv) hr htv
      rw [decide_eq_true hhit.1] at heffect
      have hsince := since_of_run (henv' ▸ hv ▸ henv) (heffect.traversable htv) hrest hkept' hlater
      rw [heffect.delete_get hhit.2] at hsince
      refine ⟨_,hsince,?_⟩
      rw [hshown hp,hloc,Option.bind_some]
    · refine ⟨_,since_of_run henv ht run hkept hno,?_⟩
      rw [hshown hp,hloc,Option.bind_some]

theorem framed_of_step (henv : w.env.Reliable) (ht : Traversable w.root) (r : FileRequest)
    (hkept : ¬r.Leaks w) (href : refused w.env.refuses w.root q = false)
    (href' : refused w.env.refuses (r.next maxFileSize w).root q = false) :
    Framed (w,r) q (answer w.env.refuses w.root q)
      (answer w.env.refuses (r.next maxFileSize w).root q) := by
  obtain ⟨heffect,_⟩ := request_effect maxFileSize r henv hkept ht
  have hmiss {loc : Loc} (hne : subPlace r.subPath ≠ some loc) :
      ¬(decide (r.reply maxFileSize w = .noContent) = true ∧ subPlace r.subPath = some loc) :=
    fun h => hne h.2
  refine ⟨fun hloc => ?_,fun loc hloc hne hpass hparent => ?_,fun p loc hp hloc hne => ?_⟩
  · cases hp : pathOf q with
    | error e => rw [answer,answer,hp]
    | ok p => rw [answer_shown hp href,answer_shown hp href',hloc,Option.bind_none,Option.bind_none]
  · cases hp : pathOf q with
    | error e => rw [answer,answer,hp]
    | ok p =>
      rw [answer_shown hp href,answer_shown hp href',hloc,Option.bind_some,Option.bind_some,
        heffect.apart (hmiss hne) hpass hparent]
  · refine ⟨_,_,heffect.since (hmiss hne),?_,?_⟩
    · rw [answer_shown hp href,hloc,Option.bind_some]
    · rw [answer_shown hp href',hloc,Option.bind_some]

/-- The files API is a map. Along every run of requests that leaves no temporary file behind, a GET
answers with the body of the latest successful PUT on its place, with 404 after a DELETE, and with
what the initial tree has there otherwise, and other requests change its answer only above what they
name, exactly if its path is not refused at any point of the run. -/
theorem files_api_map (henv : w₀.env.Reliable) (ht : Traversable w₀.root)
    (_ : Run (fileStep maxFileSize) w₀ h w) (hkept : Kept h) (q : Str) :
    (∀ later earlier v, h = later ++ earlier → Run (fileStep maxFileSize) w₀ earlier v →
      Follows maxFileSize w₀.root earlier q ((FileRequest.get q).reply maxFileSize v) ∧
      ∀ e before, earlier = e :: before →
        Framed e q ((FileRequest.get q).reply maxFileSize e.1)
          ((FileRequest.get q).reply maxFileSize v)) ↔
    ∀ later earlier v, h = later ++ earlier → Run (fileStep maxFileSize) w₀ earlier v →
      refused w₀.env.refuses v.root q = false := by
  constructor
  · intro hclaim later earlier v hh hrun
    obtain ⟨-,hearlier⟩ := (hh ▸ hkept).of_append
    obtain ⟨hv,htv⟩ := reachable henv ht hrun hearlier
    have hc := (hclaim later earlier v hh hrun).1
    rw [reply_get (hv ▸ henv) htv] at hc
    exact hv ▸ (follows_iff henv ht hrun hearlier).mp hc
  · intro href later earlier v hh hrun
    obtain ⟨-,hearlier⟩ := (hh ▸ hkept).of_append
    obtain ⟨hv,htv⟩ := reachable henv ht hrun hearlier
    rw [reply_get (hv ▸ henv) htv]
    have hlast := href later earlier v hh hrun
    refine ⟨(follows_iff henv ht hrun hearlier).mpr (hv ▸ hlast),?_⟩
    rintro ⟨u,r⟩ before rfl
    cases hrun with
    | next hbefore taken =>
      cases taken
      obtain ⟨hr,hbefore'⟩ := (guarded_cons _ _ _ _).mp hearlier
      obtain ⟨hu,htu⟩ := reachable henv ht hbefore hbefore'
      have hfirst := href (later ++ [(u,r)]) before u (by simp [hh]) hbefore
      rw [reply_get (hu ▸ henv) htu]
      have hframed : Framed (u,r) q (answer u.env.refuses u.root q)
          (answer u.env.refuses (r.next maxFileSize u).root q) :=
        framed_of_step (hu ▸ henv) htu r hr (hu ▸ hfirst) (hu ▸ hlast)
      rwa [hv,← hu]

theorem state_of_run {r : FileRequest} {v : World}
    (run : Run (fileStep maxFileSize) w₀ ((w,r)::h) v) : v = r.next maxFileSize w := by
  cases run with
  | next _ taken => exact (Option.some.inj taken).symm

/-- A session just made, on a host where nothing goes wrong. -/
def newSession : World where
  env := ⟨40,fun _ _ => none,id,fun n => n,id,fun _ => [1],fun _ => false,fun _ => false,
    fun _ => false⟩
  root := .dir ⟨0,Session.dirMode,0,0,0⟩ []
  fds := []
  nextFd := 3
  calls := 0

theorem newSession_reliable : newSession.env.Reliable := fun _ _ _ => rfl

theorem newSession_traversable : Traversable newSession.root := by
  have hroot {loc : Loc} {a : Attr} {es : List (Name × Node)}
      (h : newSession.root.get loc = some (.dir a es)) : a.mode = Session.dirMode ∧ es = [] := by
    cases loc with
    | nil =>
      cases h
      exact ⟨rfl,rfl⟩
    | cons => cases h
  refine ⟨rfl,fun loc a es h => ?_,fun loc a es h => ?_,fun loc a es h => ?_⟩
  · rw [(hroot h).1]
    exact ⟨rfl,rfl⟩
  · rw [(hroot h).2]
    exact List.nodup_nil
  · rw [(hroot h).2]
    exact nofun

theorem newSession_kept (r : FileRequest) : ¬r.Leaks newSession := by
  rintro ⟨q,content,-,hleaks⟩
  exact Session.not_handoverLeaks (fun _ => rfl) (fun _ => rfl) hleaks

def putRequest : FileRequest := .put (lit "a//b") (.bytes [1,2])

def deleteRequest : FileRequest := .delete (lit "/a/./b")

def afterPut : World := putRequest.next 9 newSession

def afterDelete : World := deleteRequest.next 9 afterPut

/-- A file is put, read and deleted, each time under another spelling of its path. -/
theorem files_api_map_spellings : (FileRequest.get (lit "a/b")).reply 9 afterPut = .body [1,2] ∧
    (FileRequest.get (lit "a/b")).reply 9 afterDelete = notFound := by
  have hplace : subPlace (lit "a/b") = some [⟨[0x61],by decide⟩,⟨[0x62],by decide⟩] := by
    decide +kernel
  have hput : Hits 9 [⟨[0x61],by decide⟩,⟨[0x62],by decide⟩] (newSession,putRequest) :=
    ⟨by decide +kernel,by decide +kernel⟩
  have hdelete : Hits 9 [⟨[0x61],by decide⟩,⟨[0x62],by decide⟩] (afterPut,deleteRequest) :=
    ⟨by decide +kernel,by decide +kernel⟩
  have hrun : Run (fileStep 9) newSession [(afterPut,deleteRequest),(newSession,putRequest)]
      afterDelete := .next (.next .start rfl) rfl
  have hkept : Kept [(afterPut,deleteRequest),(newSession,putRequest)] :=
    (guarded_cons _ _ _ _).mpr ⟨fun ⟨_,_,h,_⟩ => (nomatch h),
      (guarded_cons _ _ _ _).mpr ⟨newSession_kept _,guarded_nil _⟩⟩
  have hmap := (files_api_map newSession_reliable newSession_traversable hrun hkept (lit "a/b")).mpr ?_
  · have hfirst : Follows 9 newSession.root [(newSession,putRequest)] (lit "a/b")
        ((FileRequest.get (lit "a/b")).reply 9 afterPut) :=
      (hmap [(afterPut,deleteRequest)] _ afterPut rfl (.next .start rfl)).1
    have hsecond : Follows 9 newSession.root [(afterPut,deleteRequest),(newSession,putRequest)]
        (lit "a/b") ((FileRequest.get (lit "a/b")).reply 9 afterDelete) :=
      (hmap [] _ afterDelete rfl hrun).1
    refine ⟨hfirst.put _ [] newSession (lit "a//b") (.bytes [1,2]) [] hplace rfl hput nofun,?_⟩
    obtain ⟨o,hsince,ho⟩ := hsecond.deleted (lit "a/b") _ [] afterPut (lit "/a/./b") _
      (by decide +kernel) hplace rfl hdelete nofun
    rcases hsince.missing rfl with rfl | ⟨⟨r,hr,_⟩,_⟩
    · exact ho
    · cases hr
  · intro later earlier v hh run
    have hafterDelete : refused newSession.env.refuses afterDelete.root (lit "a/b") = false := by
      decide +kernel
    have hafterPut : refused newSession.env.refuses afterPut.root (lit "a/b") = false := by
      decide +kernel
    have hnew : refused newSession.env.refuses newSession.root (lit "a/b") = false := by
      decide +kernel
    rcases later with _ | ⟨e,_ | ⟨e',later⟩⟩
    · obtain rfl : _ = earlier := hh
      rw [state_of_run run]
      exact hafterDelete
    · obtain rfl : _ = earlier := List.tail_eq_of_cons_eq hh
      rw [state_of_run run]
      exact hafterPut
    · obtain ⟨-,rfl⟩ : [] = later ∧ _ = earlier := List.append_eq_nil_iff.mp
        (List.tail_eq_of_cons_eq (List.tail_eq_of_cons_eq hh)).symm |>.imp Eq.symm Eq.symm
      cases run
      exact hnew

/-- A name that no file can have is not reported as missing. -/
theorem long_name_internal_error : ¬∀ (maxFileSize : ℕ) (w₀ w : World) (h : History) (q : Str),
    w₀.env.Reliable → Traversable w₀.root → Run (fileStep maxFileSize) w₀ h w →
      Follows maxFileSize w₀.root h q ((FileRequest.get q).reply maxFileSize w) := by
  intro hclaim
  have hlong := hclaim 9 newSession newSession [] (List.replicate 256 0x61) newSession_reliable
    newSession_traversable .start
  rw [reply_get newSession_reliable newSession_traversable] at hlong
  have href := (follows_iff newSession_reliable newSession_traversable .start nofun).mp hlong
  exact absurd href (by decide +kernel)

end Runs

end CodeExecutorApi
