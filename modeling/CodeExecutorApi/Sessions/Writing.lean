import CodeExecutorApi.Sessions.Descent

/-! What writing or deleting a file of a session does to its tree, whether it succeeds or fails. Any
call may fail, save that clean-up has to work. -/
namespace CodeExecutorApi
open Python Posix Machine

/-- What the reads of a body give until the first empty one. -/
def bodyOf : List (Except (Exc AppError) Bytes) → Bytes
  | .ok (b :: bs) :: reads => b :: bs ++ bodyOf reads
  | _ => []

def Content.body (content : Content) : Bytes := bodyOf (prepareReader content)

theorem tempName_component (digits : List (Fin 64)) :
    Component (tempPrefix ++ digits.map Os.digit) := by
  have hdigit : ∀ d : Fin 64, Os.digit d ≠ 0 := by decide
  have hprefix : 0 ∉ tempPrefix := by decide
  refine ⟨IsTemporary.plain ⟨digits,rfl⟩,?_⟩
  rw [List.mem_append,List.mem_map]
  rintro (h | ⟨d,_,hd⟩)
  · exact hprefix h
  · exact hdigit d hd

/-- Entries can be unlinked. -/
def Tidy (env : Environment) : Prop := ∀ n, env.fault .unlink n = none

theorem tidy_of_reliable {env : Environment} (h : env.Reliable) : Tidy env :=
  fun n => h _ n (by decide)

/-- `write_file_to_temp` makes its file and gets no file object for the descriptor, and then it
cannot close that. -/
def Stranded (fd : ℕ) (w : World) : Prop :=
  ∃ fd' u e x e', (Os.open_ (tempPrefix ++ (w.env.random w.calls).map Os.digit) tempFlags tempMode
      (some fd) : Api ℕ) w.tick = (.ok fd',u) ∧
    (Os.awaitFdopen fd' : Api Unit) u = (.error e,x) ∧ ((Os.close fd' : Api Unit) x).1 = .error e'

section Writing
variable {w : World} {fd : ℕ} {loc : Loc} {c : Name} {a : Attr} {es : List (Name × Node)}

/-- The body is appended chunk by chunk. Interrupted, a part of it was. -/
theorem ends_writeContent {content : Bytes} {reads : List (Except (Exc AppError) Bytes)}
    {maxSize size : ℕ} {Q : Except (Exc AppError) ℕ → World → Prop}
    (hfd : w.Has fd (loc ++ [c])) (hfile : w.root.get (loc ++ [c]) = some (.file a content))
    (hQ : ∀ r b content' v, b.mode = a.mode → w.Relinks loc c (some (.file b content')) v →
      (∀ n, r = .ok n → content' = content ++ bodyOf reads ∧ n = size + (bodyOf reads).length ∧
        (size ≤ maxSize → n ≤ maxSize)) → Q r v) :
    (writeContent fd maxSize size reads).Ends w Q := by
  induction reads generalizing w size content a with
  | nil =>
    refine hQ _ a content w rfl (World.relinks_refl hfile) fun n hn => ?_
    cases hn
    exact ⟨(List.append_nil _).symm,rfl,id⟩
  | cons read reads ih =>
    have hquiet {r : Except (Exc AppError) ℕ} {v : World} (hv : w.Quiet v)
        (hr : ∀ n, r = .ok n → n = size ∧ bodyOf (read :: reads) = []) : Q r v := by
      refine hQ r a content v rfl ((World.relinks_refl hfile).quiet hv) fun n hn => ?_
      obtain ⟨rfl,hbody⟩ := hr n hn
      rw [hbody,List.append_nil]
      exact ⟨rfl,rfl,id⟩
    refine Program.Ends.bind (R := fun r v => w.Quiet v) ?_ (fun _ v hv => ?_) fun e v hv => ?_
    · exact Os.ends_checkpoint (fun e v hv => hv) fun v hv => hv
    · cases read with
      | error e => exact hquiet hv nofun
      | ok chunk =>
        cases chunk with
        | nil => exact hquiet hv fun n hn => ⟨(Except.ok.inj hn).symm,rfl⟩
        | cons byte chunk =>
          dsimp only
          split_ifs with hsize
          · exact hquiet hv nofun
          refine Program.Ends.bind (R := fun r u => ∃ b content', b.mode = a.mode ∧
            w.Relinks loc c (some (.file b content')) u ∧
            (r = .ok () → content' = content ++ byte :: chunk)) ?_ ?_ ?_
          · refine Os.ends_awaitThread (R := fun r u => ∃ b content', b.mode = a.mode ∧
              w.Relinks loc c (some (.file b content')) u ∧
              (r = .ok () → content' = content ++ byte :: chunk)) (fun u hu => ?_)
              (fun e u hu => ?_) (fun _ u x h hx => ?_) fun e u h => h
            · have hwu := hv.trans hu
              refine Os.ends_write ((hwu.keeps _).has hfd) (hwu.root ▸ hfile) (fun e x _ hx => ?_)
                fun b x hmode hx => ?_
              · exact ⟨a,content,rfl,(World.relinks_refl hfile).quiet (hwu.trans hx),nofun⟩
              · exact ⟨b,_,hmode,hwu.relinks hx,fun _ => rfl⟩
            · exact ⟨a,content,rfl,(World.relinks_refl hfile).quiet (hv.trans hu),nofun⟩
            · obtain ⟨b,content',hmode,hrel,hc⟩ := h
              exact ⟨⟨b,content',hmode,hrel.quiet hx,fun _ => hc rfl⟩,
                fun e => ⟨b,content',hmode,hrel.quiet hx,nofun⟩⟩
          · rintro _ u ⟨b,content',hmode,hrel,hc⟩
            refine ih (hrel.keeps.has hfd) (hrel.tree.get_entry []) ?_
            intro r d content'' x hd hx hr
            refine hQ r d content'' x (hd.trans hmode) (hrel.comp hx) fun n hn => ?_
            obtain ⟨hbody,hn',hle⟩ := hr n hn
            have hlen : (bodyOf (.ok (byte :: chunk) :: reads)).length =
                (byte :: chunk).length + (bodyOf reads).length := List.length_append
            refine ⟨?_,by omega,fun _ => hle (by omega)⟩
            rw [hbody,hc rfl,List.append_assoc]
            rfl
          · rintro e u ⟨b,content',hmode,hrel,_⟩
            exact hQ _ b content' u hmode hrel nofun
    · exact hquiet hv nofun

/-- A file goes again. That fails only if `unlink` itself does. -/
theorem ends_unlinkStaged {name : Str} {n : Node} {Q : Except (Exc AppError) Unit → World → Prop}
    (hs : Component name) (hc : nameOf name = some c) (hfd : w.Has fd loc)
    (hdir : w.root.get loc = some (.dir a es)) (hn : es.lookup c = some n) (hfile : n.isDir = false)
    (hsearch : a.mode.search = true) (hwrite : a.mode.write = true)
    (hkept : ∀ r v, w.Quiet v → w.env.fault .unlink w.calls ≠ none → Q r v)
    (hgone : ∀ v, w.Relinks loc c none v → Q (.ok ()) v) :
    (suppressFileNotFound (Os.unlink name fd)).Ends w Q := by
  refine Program.Ends.handle (R := fun r v => match r with
    | .ok () => w.Relinks loc c none v
    | .error _ => w.Quiet v ∧ w.env.fault .unlink w.calls ≠ none) ?_ (fun _ v h => hgone v h)
    fun e v h => ?_
  · refine Os.ends_unlink hs hfd hdir (fun e v hv hno => ⟨hv,?_⟩) fun d m v hd _ _ hv => ?_
    · exact hno c n hc hn hfile hsearch hwrite
    · cases hc.symm.trans hd
      exact hv
  · cases e with
    | os cls errno => cases cls <;> exact hkept _ v h.1 h.2
    | valueError | unicodeEncodeError | cancelled | app => exact hkept _ v h.1 h.2

/-- The body of a write is in the directory, but not yet visible under its own name. -/
structure Temporary (loc : Loc) (name : Str) (body : Bytes) (t t' : Node) : Prop where
  component : Component name
  file : ∃ c a es b, nameOf name = some c ∧ t.get loc = some (.dir a es) ∧
    a.mode.write = true ∧ es.lookup c = none ∧ b.mode = tempMode ∧
    Relinked loc c (some (.file b body)) t t'

/-- What is left of a temporary file where clean-up does not work. -/
def Strayed (env : Environment) (loc : Loc) (t t' : Node) : Prop :=
  ∃ n c b body, nameOf (tempPrefix ++ (env.random n).map Os.digit) = some c ∧
    t.get (loc ++ [c]) = none ∧ Relinked loc c (some (.file b body)) t t'

/-- The body is written and the file closed. If that is interrupted, some bytes are there. -/
theorem ends_writeClosed {content : Content} {maxSize fd' : ℕ} {x : World} {b : Attr}
    (hlt : w.nextFd ≤ fd') (hhas : x.Has fd' (loc ++ [c]))
    (hx : w.Relinks loc c (some (.file b [])) x) :
    ((writeFileContent fd' content maxSize).ensure (Os.awaitThread (Os.close fd'))).Ends x fun r y =>
      ∃ b' body, b'.mode = b.mode ∧ w.Relinks loc c (some (.file b' body)) y ∧
        ∀ n, r = .ok n → body = content.body ∧ n = content.body.length ∧ n ≤ maxSize := by
  refine Program.ends_ensure.mpr ?_
  refine ends_writeContent hhas (hx.tree.get_entry []) ?_
  intro r b' body y hmode hy hr
  have hwy := hx.comp hy
  have hsize (n : ℕ) (hn : r = .ok n) :
      body = content.body ∧ n = content.body.length ∧ n ≤ maxSize := by
    obtain ⟨hbody,hn',hle⟩ := hr n hn
    exact ⟨hbody,hn'.trans (Nat.zero_add _),hle (Nat.zero_le _)⟩
  refine Os.ends_awaitThread (R := fun r z => w.Relinks loc c (some (.file b' body)) z)
    (fun z hz => Os.ends_close_any fun r z' hz' => ?_) (fun e z hz => ?_) (fun _ z z' hz hz' => ?_)
    fun e z hz => ?_
  · exact ⟨hz'.root ▸ (hwy.quiet hz).tree,(hwy.quiet hz).keeps.trans (hz'.keeps hlt)⟩
  · exact ⟨b',body,hmode,hwy.quiet hz,nofun⟩
  · exact ⟨⟨b',body,hmode,hz.quiet hz',hsize⟩,fun e => ⟨b',body,hmode,hz.quiet hz',nofun⟩⟩
  · exact ⟨b',body,hmode,hz,nofun⟩

/-- `write_file_to_temp`. A failure leaves nothing behind where clean-up works. -/
theorem ends_writeFileToTemp {content : Content} {maxSize : ℕ}
    {Q : Except (Exc AppError) (Str × ℕ) → World → Prop} (hfd : w.Has fd loc)
    (hdir : w.root.get loc = some (.dir a es))
    (herror : ∀ e v, Touched loc w.root v.root → w.Keeps w.nextFd v → Q (.error e) v)
    (hstray : ∀ e v, ¬Tidy w.env ∨ Stranded fd w → Strayed w.env loc w.root v.root →
      w.Keeps w.nextFd v → Q (.error e) v)
    (hok : ∀ n v, a.mode.search = true →
      Temporary loc (tempPrefix ++ (w.env.random n).map Os.digit) content.body w.root v.root →
      content.body.length ≤ maxSize → w.Keeps w.nextFd v →
      Q (.ok (tempPrefix ++ (w.env.random n).map Os.digit,content.body.length)) v) :
    (writeFileToTemp fd content maxSize).Ends w Q := by
  have hs := tempName_component (w.env.random w.calls)
  have hquiet {e : Exc AppError} {v : World} (hv : w.Quiet v) : Q (.error e) v :=
    herror e v (by rw [hv.root]; exact .refl hdir) (hv.keeps _)
  unfold writeFileToTemp
  refine Program.Ends.bind (R := fun r v => r = .ok ((w.env.random w.calls).map Os.digit) ∧
    v = w.tick) ⟨rfl,rfl⟩ ?_ fun e v hv => (nomatch hv.1)
  rintro _ v ⟨⟨⟩,hvw⟩
  have hv : w.Quiet v := hvw ▸ World.quiet_tick w
  dsimp only
  have hok := hok w.calls
  have hstray : ∀ c b body v, ¬Tidy w.env ∨ Stranded fd w →
      nameOf (tempPrefix ++ (w.env.random w.calls).map Os.digit) = some c → es.lookup c = none →
      w.Relinks loc c (some (.file b body)) v → ∀ e, Q (.error e) v :=
    fun c b body v hwhy hc hnone hrel e => hstray e v hwhy ⟨w.calls,c,b,body,hc,
      by rw [Node.get_entry hdir,hnone],hrel.tree⟩ hrel.keeps
  have hstrands : ∀ fd' u e x e', (Os.open_ (tempPrefix ++ (w.env.random w.calls).map Os.digit)
      tempFlags tempMode (some fd) : Api ℕ) v = (.ok fd',u) →
      (Os.awaitFdopen fd' : Api Unit) u = (.error e,x) →
      ((Os.close fd' : Api Unit) x).1 = .error e' → Stranded fd w :=
    fun fd' u e x e' hmade hlost hstuck => ⟨fd',u,e,x,e',hvw ▸ hmade,hlost,hstuck⟩
  generalize tempPrefix ++ (w.env.random w.calls).map Os.digit = name at hs hok hstray hstrands
  -- the file is made
  refine Program.Ends.bind (Program.Ends.run (Q := fun r u => match r with
    | .error _ => w.Quiet u
    | .ok fd' => fd' = v.nextFd ∧ ∃ c b, nameOf name = some c ∧ es.lookup c = none ∧
        a.mode.search = true ∧ a.mode.write = true ∧ b.mode = tempMode ∧
        w.Relinks loc c (some (.file b [])) u ∧ u.Has fd' (loc ++ [c])) ?_) ?_
      fun e u hu => hquiet hu.2
  · refine Os.ends_create hs ((hv.keeps _).has hfd) (hv.root ▸ hdir) rfl rfl
      (fun e u hu => hv.trans hu) fun c b u hc hnone hsearch hwrite hmode htree hu => ?_
    exact ⟨rfl,c,b,hc,hnone,hsearch,hwrite,hmode,⟨hv.root ▸ htree,(hv.keeps _).step hu.keeps⟩,hu.has⟩
  rintro fd' u ⟨hmade,rfl,c,b,hc,hnone,hsearch,hwrite,hmode,hu,hhas⟩
  have hlt : w.nextFd ≤ v.nextFd := hv.nextFd.ge
  have hunlink {b' : Attr} {body : Bytes} {x : World}
      (hx : w.Relinks loc c (some (.file b' body)) x) :
      (suppressFileNotFound (Os.unlink name fd)).Ends x fun _ y => ∀ e, Q (.error e) y := by
    obtain ⟨_,_,a',es',hget,hdir',hmode',_,hlookup⟩ := hx.tree.get_loc
    cases hdir.symm.trans hget
    refine ends_unlinkStaged hs hc (hx.keeps.has hfd) hdir' hlookup rfl (hmode' ▸ hsearch)
      (hmode' ▸ hwrite) (fun r y hy hno => ?_) fun y hy e => ?_
    · rw [hx.keeps.env] at hno
      exact hstray c b' body y (.inl fun h => hno (h _)) hc hnone (hx.quiet hy)
    · exact herror e y (hx.tree.cancel hy.tree (by rw [Node.get_entry hdir,hnone]))
        (hx.keeps.step hy.keeps)
  -- the file object takes over the descriptor
  refine Program.Ends.bind (R := fun r x => match r with
    | .ok _ => u.Quiet x
    | .error _ => ∀ e, Q (.error e) x) ?_ ?_ fun e x hx => hx e
  · have hclosed {x y : World} (hx : w.Relinks loc c (some (.file b [])) x)
        (hy : x.Closed v.nextFd y) : w.Relinks loc c (some (.file b [])) y :=
      ⟨hy.root ▸ hx.tree,hx.keeps.trans (hy.keeps hlt)⟩
    refine Program.ends_onError.mpr (Program.Ends.mono (Program.Ends.run (Q := fun r x => match r with
      | .ok _ => u.Quiet x
      | .error _ => w.Relinks loc c (some (.file b [])) x) ?_) fun r x hx => ?_)
    · exact Os.ends_awaitFdopen (fun e x hx => hx.elim hu.quiet fun hx => hclosed hu hx.1)
        fun x hx => hx
    cases r with
    | ok _ => exact hx.2
    | error e =>
      obtain ⟨hlost,hx⟩ := hx
      refine Program.Ends.bind (Program.Ends.run (Q := fun _ y =>
        w.Relinks loc c (some (.file b [])) y) (Os.ends_close_any fun _ y hy => hclosed hx hy))
        (fun _ y hy => ?_) fun e' y hy => ?_
      · refine (hunlink hy.2).mono fun r z hz => ?_
        cases r <;> exact hz
      · refine hstray c b [] y (.inr (hstrands _ u e x e' hmade hlost ?_)) hc hnone hy.2
        rw [hy.1]
  rintro _ x hx
  -- the body is written, and the file closed
  refine Program.Ends.bind (R := fun r y => match r with
    | .error _ => ∀ e, Q (.error e) y
    | .ok n => n = content.body.length ∧ n ≤ maxSize ∧
        Temporary loc name content.body w.root y.root ∧ w.Keeps w.nextFd y) ?_ ?_
      fun e y hy => hy e
  · refine Program.ends_onError.mpr
      ((ends_writeClosed hlt ((hx.keeps _).has hhas) (hu.quiet hx)).mono ?_)
    rintro r y ⟨b',body,hmode',hy,hbody⟩
    cases r with
    | ok n =>
      obtain ⟨rfl,hn,hle⟩ := hbody n rfl
      exact ⟨hn,hle,⟨hs,c,a,es,b',hc,hdir,hwrite,hnone,hmode'.trans hmode,hy.tree⟩,hy.keeps⟩
    | error e =>
      refine (hunlink hy).mono fun r z hz => ?_
      cases r <;> exact hz
  · rintro size y ⟨rfl,hle,htemp,hk⟩
    exact hok y hsearch htemp hle hk

/-- A file was made under a temporary name. -/
theorem made_temp {name : Str} {fd' : ℕ} {u : World} (hs : Component name) (hfd : w.Has fd loc)
    (hdir : w.root.get loc = some (.dir a es))
    (hmade : (Os.open_ name tempFlags tempMode (some fd) : Api ℕ) w.tick = (.ok fd',u)) :
    fd' = w.nextFd ∧ ∃ c b, nameOf name = some c ∧ w.root.get (loc ++ [c]) = none ∧
      u.Has fd' (loc ++ [c]) ∧ w.Relinks loc c (some (.file b [])) u := by
  have hquiet := World.quiet_tick w
  refine (Program.ends_of_run hmade).mp (Os.ends_create (Q := fun r u => ∀ fd', r = .ok fd' →
    fd' = w.nextFd ∧ ∃ c b, nameOf name = some c ∧ w.root.get (loc ++ [c]) = none ∧
      u.Has fd' (loc ++ [c]) ∧ w.Relinks loc c (some (.file b [])) u) hs
    ((hquiet.keeps _).has hfd) hdir rfl rfl (fun e u _ => nofun)
    fun c b u hc hnone _ _ _ htree hu fd' hfd' => ?_) fd' rfl
  cases hfd'
  exact ⟨rfl,c,b,hc,by rw [Node.get_entry hdir,hnone],hu.has,htree,(hquiet.keeps _).step hu.keeps⟩

/-- A temporary file without an owner is there for good. -/
theorem ends_writeFileToTemp_stranded (content : Content) (maxSize : ℕ) (hfd : w.Has fd loc)
    (hdir : w.root.get loc = some (.dir a es)) (h : Stranded fd w) :
    (writeFileToTemp fd content maxSize).Ends w fun r v =>
      (∃ e, r = .error e) ∧ Strayed w.env loc w.root v.root ∧ w.Keeps w.nextFd v := by
  obtain ⟨fd',u,e,x,e',hmade,hlost,hstuck⟩ := h
  obtain ⟨rfl,c,b,hc,hnone,-,hu⟩ := made_temp (tempName_component _) hfd hdir hmade
  have hclosed {x y : World} (hx : w.Relinks loc c (some (.file b [])) x)
      (hy : x.Closed w.nextFd y) : w.Relinks loc c (some (.file b [])) y :=
    ⟨hy.root ▸ hx.tree,hx.keeps.trans (hy.keeps le_rfl)⟩
  have hx : w.Relinks loc c (some (.file b [])) x := by
    refine (Program.ends_of_run hlost).mp (Os.ends_awaitFdopen
      (Q := fun _ x => w.Relinks loc c (some (.file b [])) x) (fun _ x hx => ?_) fun x => hu.quiet)
    exact hx.elim hu.quiet fun hx => hclosed hu hx.1
  have hrest : (Program.onError (Os.awaitFdopen w.nextFd) (do
      Os.close w.nextFd
      suppressFileNotFound (Os.unlink (tempPrefix ++ (w.env.random w.calls).map Os.digit) fd)) :
      Api Unit).Ends u fun r v => (∃ e, r = .error e) ∧ w.Relinks loc c (some (.file b [])) v := by
    refine Program.ends_onError.mpr ((Program.ends_of_run hlost).mpr (Program.ends_bind.mpr
      (Program.Ends.mono (Program.Ends.run (Os.ends_close_any fun r v hv => hclosed hx hv)) ?_)))
    rintro r v ⟨hrun,hv⟩
    rw [hrun] at hstuck
    cases hstuck
    exact ⟨⟨e',rfl⟩,hv⟩
  unfold writeFileToTemp
  have htoken : (Os.tokenUrlsafe : Api Str) w = (.ok ((w.env.random w.calls).map Os.digit),w.tick) :=
    rfl
  refine Program.ends_bind.mpr ((Program.ends_of_run htoken).mpr ?_)
  refine Program.ends_bind.mpr ((Program.ends_of_run hmade).mpr ?_)
  refine Program.ends_bind.mpr (hrest.mono ?_)
  rintro r v ⟨⟨e,rfl⟩,hv⟩
  exact ⟨⟨e,rfl⟩,⟨w.calls,c,b,[],hc,hnone,hv.tree⟩,hv.keeps⟩

/-- A descriptor that no file object has closed can be closed. -/
theorem not_stranded (hfd : w.Has fd loc) (hdir : w.root.get loc = some (.dir a es))
    (hfreed : ∀ n, w.env.freed n = false) (hclose : ∀ n, w.env.fault .close n = none) :
    ¬Stranded fd w := by
  rintro ⟨fd',u,e,x,e',hmade,hlost,hstuck⟩
  obtain ⟨rfl,c,b,-,-,hhas,hu⟩ := made_temp (tempName_component _) hfd hdir hmade
  have hx : u.Quiet x := by
    refine (Program.ends_of_run hlost).mp (Os.ends_awaitFdopen (Q := fun _ x => u.Quiet x)
      (fun _ x hx => ?_) fun x hx => hx)
    refine hx.elim id fun ⟨_,n,hn⟩ => ?_
    rw [hu.keeps.env,hfreed] at hn
    cases hn
  have hok : (Os.close w.nextFd : Api Unit).Ends x fun r _ => r = .ok () := by
    refine Os.ends_close ((hx.keeps _).has hhas) (fun _ _ _ => rfl) fun hno => absurd ?_ hno
    rw [hx.env,hu.keeps.env]
    exact hclose _
  exact absurd (hstuck.symm.trans hok) nofun

end Writing

/-- A temporary file that got its name is as if it had been written under that name. -/
theorem Temporary.renamed {loc : Loc} {name : Str} {body : Bytes} {c d : Name} {n t t' t'' : Node}
    (h : Temporary loc name body t t') (hc : nameOf name = some c)
    (hren : Renamed loc c d n t' t'') : ∃ b, b.mode = tempMode ∧ n = .file b body ∧
      Relinked loc d (some n) t t'' ∧ ∀ m, t.get (loc ++ [d]) = some m → m.isDir = false := by
  obtain ⟨c',a,es,b,hc',hdir,_,hnone,hmode,hrel⟩ := h.file
  cases hc.symm.trans hc'
  have hnone' : t.get (loc ++ [c]) = none := by rw [Node.get_entry hdir,hnone]
  have hn : n = .file b body := Option.some.inj (hren.old.symm.trans (hrel.get_entry []))
  refine ⟨b,hmode,hn,?_,fun m hm => ?_⟩
  · rcases hren.moved with ⟨rfl,rfl⟩ | ⟨_,s,hgone,hput⟩
    · exact hn ▸ hrel
    · exact ((hrel.cancel hgone hnone').relinked d).comp hput
  · by_cases hcd : c = d
    · subst d
      rw [hnone'] at hm
      cases hm
    · exact hren.replaced m (by rw [hrel.get_sibling hcd,hm])

namespace Session
variable {w : World} {q p name : Str} {loc : Loc} {c : Name} {a : Attr} {es : List (Name × Node)}

theorem normalize_eq (hq : normalizeSubPath q = .ok p) : (normalize q : Api Str) = pure p := by
  rw [normalize,hq]

/-- `stage_file` has walked to `loc` and then, in `u`, written the temporary file; all that remains
is to close the directory, in `v`. -/
structure Uploads (maxFileSize : ℕ) (p : Str) (content : Content) (w : World) (fd : ℕ) (name : Str)
    (loc : Loc) (u v : World) : Prop where
  entered : enterParent rootDirectory p true w = (.ok fd,u)
  wrote : writeFileToTemp fd content maxFileSize u = (.ok (name,content.body.length),v)
  place : place (split p).dropLast = some loc
  grown : Grown dirMode loc w.root u.root
  enterable : Enterable u.root loc
  searchable : ∃ a es, u.root.get loc = some (.dir a es) ∧ a.mode.search = true
  temporary : Temporary loc name content.body u.root v.root
  drawn : ∃ n, name = tempPrefix ++ (w.env.random n).map Os.digit
  size : content.body.length ≤ maxFileSize
  keeps : w.Keeps w.nextFd v

/-- The temporary file of `stage_file` is made, and stays without an owner. -/
def HandoverLeaks (q : Str) (w : World) : Prop :=
  ∃ p fd u, normalizeSubPath q = .ok p ∧ enterParent rootDirectory p true w = (.ok fd,u) ∧
    Stranded fd u

theorem not_handoverLeaks (hfreed : ∀ n, w.env.freed n = false)
    (hclose : ∀ n, w.env.fault .close n = none) : ¬HandoverLeaks q w := by
  rintro ⟨p,fd,u,hq,henters,hstranded⟩
  refine (Program.ends_of_run henters).mp (ends_enterParent (normalizeSubPath_normalised hq)
    (Q := fun r u => ∀ fd, r = .ok fd → ¬Stranded fd u) (fun e u _ _ => nofun) ?_) fd rfl hstranded
  intro fd loc u _ _ henter hk _ hhas fd' hfd'
  cases hfd'
  obtain ⟨a,es,hdir,-⟩ := henter.dir
  exact not_stranded hhas hdir (hk.env ▸ hfreed) (hk.env ▸ hclose)

/-- `stage_file` failed, and a temporary file is there. -/
def Litters (p : Str) (w v : World) : Prop :=
  ∃ loc t, place (split p).dropLast = some loc ∧ Grown dirMode loc w.root t ∧
    Strayed w.env loc t v.root

/-- Where the temporary file has no owner, the staging fails and it is there. -/
theorem ends_stageFile_handover {content : Content} {maxFileSize : ℕ} (h : HandoverLeaks q w) :
    (stageFile rootDirectory maxFileSize q content).Ends w fun r v => (∃ e, r = .error e) ∧
      v.env = w.env ∧ ∃ p, normalizeSubPath q = .ok p ∧ Litters p w v := by
  obtain ⟨p,fd,u,hq,henters,hstranded⟩ := h
  obtain ⟨loc,hloc,hg,henter,hk,hhas⟩ := (Program.ends_of_run henters).mp (ends_enterParent
    (normalizeSubPath_normalised hq) (Q := fun r u => ∀ fd, r = .ok fd → ∃ loc,
      place (split p).dropLast = some loc ∧ Grown dirMode loc w.root u.root ∧
        Enterable u.root loc ∧ w.Keeps w.nextFd u ∧ u.Has fd loc) (fun e u _ _ => nofun)
    fun fd loc u hloc hw henter hk _ hhas fd' hfd' => by
      cases hfd'
      exact ⟨loc,hloc,hw.grown,henter,hk,hhas⟩) fd rfl
  obtain ⟨a,es,hdir,-⟩ := henter.dir
  have hbody := ends_writeFileToTemp_stranded content maxFileSize hhas hdir hstranded
  unfold stageFile
  rw [normalize_eq hq,Program.pure_bind]
  refine Program.ends_bind.mpr (Program.ends_handle.mpr (Program.Ends.mono
    (Q := fun r v => (∃ e, r = .error e) ∧ v.env = w.env ∧ Litters p w v) ?_ ?_))
  · rw [openParent_eq fun _ => rfl]
    refine Program.ends_bind.mpr ((Program.ends_of_run henters).mpr (Program.ends_ensure.mpr
      (Program.ends_bind.mpr (hbody.mono ?_))))
    rintro r v ⟨⟨e,rfl⟩,hstray,hk'⟩
    refine Os.ends_close_any fun r x hx => ?_
    have hlitters : x.env = w.env ∧ Litters p w x :=
      ⟨hx.env.trans (hk.step hk').env,loc,u.root,hloc,hg,hk.env ▸ hx.root ▸ hstray⟩
    cases r <;> exact ⟨⟨_,rfl⟩,hlitters⟩
  · rintro r v ⟨⟨e,rfl⟩,henv,hlitters⟩
    dsimp only
    split <;> exact ⟨⟨_,rfl⟩,henv,p,hq,hlitters⟩

/-- If the directory cannot be closed, the temporary file stays although the staging failed. -/
theorem ends_stageFile {content : Content} {maxFileSize : ℕ}
    {Q : Except (Exc AppError) (Str × Str) → World → Prop} (hq : normalizeSubPath q = .ok p)
    (herror : ∀ e v, Grown dirMode (way (split p).dropLast) w.root v.root → w.Keeps w.nextFd v →
      Q (.error e) v)
    (hstray : ∀ e v, ¬Tidy w.env ∨ HandoverLeaks q w → Litters p w v → w.Keeps w.nextFd v →
      Q (.error e) v)
    (hleft : ∀ fd name loc u v e x, Uploads maxFileSize p content w fd name loc u v →
      v.env.fault .close v.calls ≠ none → x.root = v.root → w.Keeps w.nextFd x → Q (.error e) x)
    (hok : ∀ fd name loc u v x, Uploads maxFileSize p content w fd name loc u v →
      v.env.fault .close v.calls = none → x.root = v.root → w.Keeps w.nextFd x →
      Q (.ok (p,name)) x) :
    (stageFile rootDirectory maxFileSize q content).Ends w Q := by
  have hp := normalizeSubPath_normalised hq
  unfold stageFile
  rw [normalize_eq hq,Program.pure_bind]
  refine Program.Ends.bind (R := fun r v => match r with
    | .ok name => Q (.ok (p,name)) v
    | .error e => ∀ e, Q (.error e) v) ?_ (fun name v h => h) fun e v h => h e
  refine Program.Ends.handle (R := fun r v => match r with
    | .ok name => Q (.ok (p,name)) v
    | .error _ => ∀ e, Q (.error e) v) ?_ (fun name v h => h) fun e v h => ?_
  · rw [openParent_eq fun _ => rfl]
    refine Program.Ends.bind (ends_enterParent hp (Q := fun r u => match r with
      | .error _ => ∀ e, Q (.error e) u
      | .ok fd => ∃ loc, place (split p).dropLast = some loc ∧ Grown dirMode loc w.root u.root ∧
          Enterable u.root loc ∧ w.Keeps w.nextFd u ∧ w.nextFd ≤ fd ∧
          u.Has fd loc) ?_ ?_).run ?_ fun e u h => h.2
    · exact fun _ v hw hk e => herror e v hw.grown hk
    · exact fun fd loc v hloc hw henter hk hle hhas => ⟨loc,hloc,hw.grown,henter,hk,hle,hhas⟩
    rintro fd u ⟨henters,loc,hloc,hg,henter,hk,hle,hhas⟩
    obtain ⟨a,es,hdir,_⟩ := henter.dir
    -- the body of the `with`, and then the closing of the directory
    refine Program.ends_ensure.mpr (Program.Ends.mono (Q := fun r v => match r with
      | .ok name => Uploads maxFileSize p content w fd name loc u v ∧ v.Has fd loc
      | .error _ => (Touched loc u.root v.root ∨ (¬Tidy w.env ∨ HandoverLeaks q w) ∧
          Strayed w.env loc u.root v.root) ∧ w.Keeps w.nextFd v) ?_ ?_)
    · refine Program.Ends.bind (ends_writeFileToTemp hhas hdir
        (Q := fun r v => match r with
          | .ok (name,size) => size = content.body.length ∧ (a.mode.search = true ∧
              Temporary loc name content.body u.root v.root ∧
              (∃ n, name = tempPrefix ++ (w.env.random n).map Os.digit) ∧
              content.body.length ≤ maxFileSize) ∧ u.Keeps u.nextFd v
          | .error _ => (Touched loc u.root v.root ∨ (¬Tidy w.env ∨ HandoverLeaks q w) ∧
              Strayed w.env loc u.root v.root) ∧ w.Keeps w.nextFd v) ?_ ?_ ?_).run ?_
          fun e v h => h.2
      · exact fun e v htouched hk' => ⟨.inl htouched,hk.step hk'⟩
      · intro e v hwhy hstray hk'
        rw [hk.env] at hwhy hstray
        exact ⟨.inr ⟨hwhy.imp_right fun h => ⟨p,fd,u,hq,henters,h⟩,hstray⟩,hk.step hk'⟩
      · exact fun n v hsearch htemp hsize hk' =>
          ⟨rfl,⟨hsearch,htemp,⟨n,by rw [hk.env]⟩,hsize⟩,hk'⟩
      · rintro ⟨name,_⟩ v ⟨hwrote,rfl,⟨hsearch,htemp,hdrawn,hsize⟩,hk'⟩
        exact ⟨⟨henters,hwrote,hloc,hg,henter,⟨a,es,hdir,hsearch⟩,htemp,hdrawn,hsize,hk.step hk'⟩,
          hk'.has hhas⟩
    · intro r v h
      cases r with
      | ok name =>
        obtain ⟨hup,hhas'⟩ := h
        refine Os.ends_close hhas' (fun hclose x hx => ?_) fun hclose e x hx => ?_
        · exact hok fd name loc u v x hup hclose hx.root (hup.keeps.trans (hx.keeps hle))
        · exact fun e => hleft fd name loc u v e x hup hclose hx.root (hup.keeps.trans (hx.keeps hle))
      | error e =>
        refine Os.ends_close_any fun r x hx => ?_
        have hfail : ∀ e, Q (.error e) x := by
          intro e
          have hkx := h.2.trans (hx.keeps hle)
          rcases h.1 with htouch | ⟨hwhy,hlitter⟩
          · refine herror e x ?_ hkx
            rw [hx.root,way_of_place hloc]
            exact hg.trans (Grown.of_touched htouch List.prefix_rfl)
          · exact hstray e x hwhy ⟨loc,u.root,hloc,hg,hx.root ▸ hlitter⟩ hkx
        cases r <;> exact hfail
  · split <;> exact h

/-- A file that waits in a directory to be renamed or removed. -/
structure Waiting (p name : Str) (loc : Loc) (c : Name) (n t : Node) : Prop where
  normalised : Normalised p
  place : place (split p).dropLast = some loc
  component : Component name
  nameOf : nameOf name = some c
  dir : ∃ a es, t.get loc = some (.dir a es) ∧ a.mode.search = true ∧ a.mode.write = true
  enterable : Enterable t loc
  get : t.get (loc ++ [c]) = some n
  file : n.isDir = false

theorem Waiting.entry {n t : Node} (h : Waiting p name loc c n t) :
    ∃ a es, t.get loc = some (.dir a es) ∧ a.mode.search = true ∧ a.mode.write = true ∧
      es.lookup c = some n := by
  obtain ⟨a,es,hdir,hsearch,hwrite⟩ := h.dir
  exact ⟨a,es,hdir,hsearch,hwrite,by rw [← Node.get_entry hdir,h.get]⟩

theorem Waiting.root {n t : Node} (h : Waiting p name loc c n t) {v : World} (hv : v.root = t) :
    Waiting p name loc c n v.root := hv ▸ h

/-- After the rename of `commit_staged_file`, in `u` and `x`, all that remains is to close the
directory. -/
structure Reveals (p name : Str) (loc : Loc) (c d : Name) (n : Node) (w : World) (fd : ℕ)
    (u x : World) : Prop where
  entered : enterParent rootDirectory p false w = (.ok fd,u)
  replaced : (Os.replace name (lastPart p) fd fd : Api Unit) u = (.ok (),x)
  nameOf : nameOf (lastPart p) = some d
  place : place (split p) = some (loc ++ [d])
  renamed : Renamed loc c d n w.root x.root
  keeps : w.Keeps w.nextFd x

theorem ends_commitStagedFile {n : Node} {Q : Except (Exc AppError) Unit → World → Prop}
    (hwait : Waiting p name loc c n w.root)
    (herror : ∀ e v, v.root = w.root → w.Keeps w.nextFd v → Q (.error e) v)
    (hleft : ∀ d fd u x e v, Reveals p name loc c d n w fd u x → x.env.fault .close x.calls ≠ none →
      v.root = x.root → w.Keeps w.nextFd v → Q (.error e) v)
    (hok : ∀ d fd u x v, Reveals p name loc c d n w fd u x → x.env.fault .close x.calls = none →
      v.root = x.root → w.Keeps w.nextFd v → Q (.ok ()) v) :
    (commitStagedFile rootDirectory p name).Ends w Q := by
  have hp := hwait.normalised
  unfold commitStagedFile
  rw [openParent_eq fun _ => rfl]
  refine Program.Ends.bind (ends_enterParent hp (Q := fun r u => match r with
    | .error e => Q (.error e) u
    | .ok fd => u.root = w.root ∧ w.Keeps w.nextFd u ∧ w.nextFd ≤ fd ∧
        u.Has fd loc) ?_ ?_).run ?_ fun e u h => h.2
  · exact fun e v hw hk => herror e v (hw.made rfl) hk
  · intro fd loc' v hloc hw _ hk hle hhas
    cases hwait.place.symm.trans hloc
    exact ⟨hw.made rfl,hk,hle,hhas⟩
  rintro fd u ⟨henters,hroot,hk,hle,hhas⟩
  obtain ⟨a,es,hdir,_,_,hn⟩ := (hwait.root hroot).entry
  refine Program.ends_ensure.mpr (Program.Ends.mono (Q := fun r x => match r with
    | .ok () => (∃ d, Reveals p name loc c d n w fd u x) ∧ u.Keeps u.nextFd x
    | .error _ => u.Quiet x) ?_ ?_)
  · refine (Program.Ends.run (Q := fun r x => match r with
      | .ok () => (∃ d, nameOf (lastPart p) = some d ∧ Renamed loc c d n u.root x.root) ∧
          u.Keeps u.nextFd x
      | .error _ => u.Quiet x) ?_).mono ?_
    · exact Os.ends_replace hwait.component (component_lastPart hp) hhas hdir hwait.nameOf hn
        hwait.file (fun e x hx => hx) fun d x hd hren hx => ⟨⟨d,hd,hren⟩,hx⟩
    · rintro r x ⟨hrun,h⟩
      cases r with
      | error e => exact h
      | ok _ =>
        obtain ⟨⟨d,hd,hren⟩,hx⟩ := h
        refine ⟨⟨d,henters,hrun,hd,?_,hroot ▸ hren,hk.step hx⟩,hx⟩
        rw [split_eq,place_append,hwait.place,hd]
        rfl
  · intro r x h
    cases r with
    | ok _ =>
      obtain ⟨⟨d,hrev⟩,hx⟩ := h
      have hkeeps {y : World} (hy : x.Closed fd y) : w.Keeps w.nextFd y :=
        (hk.step hx).trans (hy.keeps hle)
      refine Os.ends_close (hx.has hhas) (fun hclose y hy => ?_) fun hclose e y hy => ?_
      · exact hok d fd u x y hrev hclose hy.root (hkeeps hy)
      · exact hleft d fd u x e y hrev hclose hy.root (hkeeps hy)
    | error e =>
      refine Os.ends_close_any fun r y hy => ?_
      have hroot' : y.root = w.root := hy.root.trans (h.root.trans hroot)
      cases r <;> exact herror _ y hroot' ((hk.step (h.keeps _)).trans (hy.keeps hle))

/-- A discarded file is gone, or nothing happened because a call failed. -/
theorem ends_discardStagedFile {n : Node} {Q : Except (Exc AppError) Unit → World → Prop}
    (hwait : Waiting p name loc c n w.root)
    (hkept : ∀ r v, ¬w.Calm → v.root = w.root → w.Keeps w.nextFd v → Q r v)
    (hgone : ∀ r v, Relinked loc c none w.root v.root → w.Keeps w.nextFd v → Q r v) :
    (discardStagedFile rootDirectory p name).Ends w Q := by
  have hp := hwait.normalised
  have hrest (fd : ℕ) (u : World) (hlater : w.Calm → u.Calm) (hroot : u.root = w.root)
      (hk : w.Keeps w.nextFd u) (hle : w.nextFd ≤ fd) (hhas : u.Has fd loc) :
      ((suppressFileNotFound (Os.unlink name fd)).ensure (Os.close fd)).Ends u Q := by
    obtain ⟨a,es,hdir,hsearch,hwrite,hn⟩ := (hwait.root hroot).entry
    refine Program.ends_ensure.mpr (ends_unlinkStaged hwait.component hwait.nameOf hhas hdir hn
      hwait.file hsearch hwrite (fun r v hv hfault => ?_) fun v hv => ?_)
    · refine Os.ends_close_any fun r' x hx => ?_
      have hcalm : ¬w.Calm := fun h => hfault (hlater h _ (by simp) _ le_rfl)
      cases r' <;> exact hkept _ x hcalm (hx.root.trans (hv.root.trans hroot))
        ((hk.step (hv.keeps _)).trans (hx.keeps hle))
    · refine Os.ends_close_any fun r' x hx => ?_
      have htree : Relinked loc c none w.root x.root := hx.root ▸ hroot ▸ hv.tree
      cases r' <;> exact hgone _ x htree ((hk.step hv.keeps).trans (hx.keeps hle))
  unfold discardStagedFile
  rw [openParent_eq fun _ => rfl]
  by_cases hcalm : w.Calm
  · refine Program.Ends.bind (R := fun r u => ∃ fd, r = .ok fd ∧ w.Later u ∧ u.root = w.root ∧
      w.Keeps w.nextFd u ∧ w.nextFd ≤ fd ∧ u.Has fd loc) ?_ ?_ fun e u ⟨_,h,_⟩ => nomatch h
    · exact ends_enterParent_calm hcalm hp hwait.place hwait.enterable
        fun fd v hlater hroot hk hle hhas => ⟨fd,rfl,hlater,hroot,hk,hle,hhas⟩
    · rintro fd u ⟨_,⟨⟩,hlater,hroot,hk,hle,hhas⟩
      exact hrest fd u (fun h => h.later hlater) hroot hk hle hhas
  · refine Program.Ends.bind (ends_enterParent hp (Q := fun r u => match r with
      | .error e => Q (.error e) u
      | .ok fd => u.root = w.root ∧ w.Keeps w.nextFd u ∧ w.nextFd ≤ fd ∧
          u.Has fd loc) ?_ ?_) ?_ fun e u h => h
    · exact fun e v hw hk => hkept _ v hcalm (hw.made rfl) hk
    · intro fd loc' v hloc hw _ hk hle hhas
      cases hwait.place.symm.trans hloc
      exact ⟨hw.made rfl,hk,hle,hhas⟩
    · rintro fd u ⟨hroot,hk,hle,hhas⟩
      exact hrest fd u (fun h => absurd h hcalm) hroot hk hle hhas

/-- There is nothing to discard any more. -/
theorem ends_discardStagedFile_gone {Q : Except (Exc AppError) Unit → World → Prop}
    (hp : Normalised p) (hloc : place (split p).dropLast = some loc) (hs : Component name)
    (hc : nameOf name = some c) (hnone : w.root.get (loc ++ [c]) = none)
    (hQ : ∀ r v, v.root = w.root → w.Keeps w.nextFd v → Q r v) :
    (discardStagedFile rootDirectory p name).Ends w Q := by
  unfold discardStagedFile
  rw [openParent_eq fun _ => rfl]
  refine Program.Ends.bind (ends_enterParent hp (Q := fun r u => match r with
    | .error e => Q (.error e) u
    | .ok fd => u.root = w.root ∧ w.Keeps w.nextFd u ∧ w.nextFd ≤ fd ∧ u.Has fd loc ∧
        Enterable u.root loc) ?_ ?_) ?_ fun e u h => h
  · exact fun e v hw hk => hQ _ v (hw.made rfl) hk
  · intro fd loc' v hloc' hw henter hk hle hhas
    cases hloc.symm.trans hloc'
    exact ⟨hw.made rfl,hk,hle,hhas,henter⟩
  rintro fd u ⟨hroot,hk,hle,hhas,henter⟩
  obtain ⟨a,es,hdir,_⟩ := henter.dir
  refine Program.ends_ensure.mpr (Program.Ends.mono (Q := fun _ v => u.Quiet v) ?_ fun r v hv => ?_)
  · refine Program.Ends.handle (R := fun r v => r ≠ .ok () ∧ u.Quiet v) ?_
      (fun _ v h => absurd rfl h.1) fun e v h => ?_
    · refine Os.ends_unlink hs hhas hdir (fun e v hv _ => ⟨nofun,hv⟩) fun d n v hd hn _ _ => ?_
      cases hc.symm.trans hd
      rw [← Node.get_entry hdir,hroot,hnone] at hn
      cases hn
    · cases e with
      | os cls errno => cases cls <;> exact h.2
      | valueError | unicodeEncodeError | cancelled | app => exact h.2
  · refine Os.ends_close_any fun r' x hx => ?_
    have hroot' : x.root = w.root := hx.root.trans (hv.root.trans hroot)
    cases r' <;> exact hQ _ x hroot' ((hk.step (hv.keeps _)).trans (hx.keeps hle))

/-- `stage_file` returned, in `v'`. -/
structure Stages (maxFileSize : ℕ) (q p : Str) (content : Content) (w : World) (fd : ℕ) (name : Str)
    (loc : Loc) (u v v' : World) : Prop extends Uploads maxFileSize p content w fd name loc u v where
  staged : stageFile rootDirectory maxFileSize q content w = (.ok (p,name),v')
  root : v'.root = v.root
  keepsAll : w.Keeps w.nextFd v'

/-- What was staged for `p` is ready to be committed. -/
theorem Uploads.waiting {maxFileSize fd : ℕ} {content : Content} {u v : World}
    (hp : Normalised p) (h : Uploads maxFileSize p content w fd name loc u v) :
    ∃ c b, b.mode = tempMode ∧ u.root.get (loc ++ [c]) = none ∧
      Waiting p name loc c (.file b content.body) v.root := by
  obtain ⟨c,a,es,b,hc,hdir,hwrite,hnone,hmode,hrel⟩ := h.temporary.file
  obtain ⟨a',es',hdir',hsearch⟩ := h.searchable
  cases hdir.symm.trans hdir'
  obtain ⟨_,_,b',bs',hget,hget',hmode',_⟩ := hrel.get_loc
  cases hdir.symm.trans hget
  have hnone' : u.root.get (loc ++ [c]) = none := by rw [Node.get_entry hdir,hnone]
  have hstays : Stays u.root v.root := by
    refine hrel.stays (fun n hn => ?_) fun n hn => ?_
    · rw [hnone'] at hn
      cases hn
    · cases hn
      rfl
  refine ⟨c,b,hmode,hnone',hp,h.place,h.temporary.component,hc,?_,hstays.enterable h.enterable,?_,
    rfl⟩
  · exact ⟨b',bs',hget',hmode' ▸ hsearch,hmode' ▸ hwrite⟩
  · exact hrel.get_entry []

/-- `Session.write_file`, if discarding what could not be committed works. Only a directory that
cannot be closed leaves more behind of a failure than directories. -/
theorem ends_writeFile_tidy {content : Content} {maxFileSize : ℕ}
    {Q : Except (Exc AppError) Unit → World → Prop} (henv : Tidy w.env)
    (hq : normalizeSubPath q = .ok p)
    (hcalm : ∀ st v e u, stageFile rootDirectory maxFileSize q content w = (.ok st,v) →
      commitStagedFile rootDirectory st.1 st.2 v = (.error e,u) → u.env = w.env → u.Calm)
    (herror : ∀ e v, Grown dirMode (way (split p).dropLast) w.root v.root → w.Keeps w.nextFd v →
      Q (.error e) v)
    (hstray : ∀ e v, HandoverLeaks q w → Q (.error e) v)
    (hstaged : ∀ fd name loc u v e x, Uploads maxFileSize p content w fd name loc u v →
      v.env.fault .close v.calls ≠ none → x.root = v.root → w.Keeps w.nextFd x → Q (.error e) x)
    (hrevealed : ∀ fd name loc u v v' c d n fd' u' x e y,
      Stages maxFileSize q p content w fd name loc u v v' → nameOf name = some c → c ≠ d →
      Reveals p name loc c d n v' fd' u' x → x.env.fault .close x.calls ≠ none →
      y.root = x.root → w.Keeps w.nextFd y → Q (.error e) y)
    (hok : ∀ fd name loc u v v' c d n fd' u' x y,
      Stages maxFileSize q p content w fd name loc u v v' → nameOf name = some c →
      Reveals p name loc c d n v' fd' u' x → x.env.fault .close x.calls = none →
      y.root = x.root → w.Keeps w.nextFd y → Q (.ok ()) y) :
    (writeFile rootDirectory maxFileSize q content).Ends w Q := by
  have hp := normalizeSubPath_normalised hq
  refine Program.Ends.bind (Program.Ends.run (Q := fun r v' => match r with
    | .ok st => ∃ fd name loc u v, st = (p,name) ∧
        Uploads maxFileSize p content w fd name loc u v ∧ v'.root = v.root ∧ w.Keeps w.nextFd v'
    | .error e => Q (.error e) v') ?_) ?_ fun e v h => h.2
  · refine ends_stageFile hq herror (fun e v hwhy _ _ => ?_) hstaged ?_
    · exact hstray e v (hwhy.resolve_left fun hno => hno henv)
    exact fun fd name loc u v x hup _ hroot hk => ⟨fd,name,loc,u,v,rfl,hup,hroot,hk⟩
  rintro _ v' ⟨hstage,fd,name,loc,u,v,rfl,hup,hroot,hk⟩
  obtain ⟨c,b,hmode,hnone,hwait⟩ := hup.waiting hp
  have hst : Stages maxFileSize q p content w fd name loc u v v' := ⟨hup,hstage,hroot,hk⟩
  -- the commit, and then what is left to discard
  refine Program.Ends.handle (Program.Ends.run (Q := fun r y => v'.Keeps v'.nextFd y ∧ match r with
    | .ok () => Q (.ok ()) y
    | .error _ => y.root = v.root ∨ ∃ d fd' u' x, Reveals p name loc c d (.file b content.body) v'
        fd' u' x ∧ x.env.fault .close x.calls ≠ none ∧ y.root = x.root) ?_)
    (fun _ y h => h.2.2) fun e y h => ?_
  · refine ends_commitStagedFile (hwait.root hroot) ?_ ?_ ?_
    · exact fun e y hy hk' => ⟨hk',.inl (hy.trans hroot)⟩
    · exact fun d fd' u' x e y hrev hclose hy hk' => ⟨hk',.inr ⟨d,fd',u',x,hrev,hclose,hy⟩⟩
    · exact fun d fd' u' x y hrev hclose hy hk' => ⟨hk',hok fd name loc u v v' c d _ fd' u' x y hst
        hwait.nameOf hrev hclose hy (hk.step hk')⟩
  obtain ⟨hcommit,hk',hleft⟩ := h
  have hky := hk.step hk'
  have hfail {e' : Exc AppError} {z : World} (hz : Touched loc u.root z.root)
      (hk'' : y.Keeps y.nextFd z) : Q (.error e') z := by
    refine herror e' z ?_ (hky.step hk'')
    rw [way_of_place hup.place]
    exact hup.grown.trans (Grown.of_touched hz List.prefix_rfl)
  have hraise {R : World → Prop} (hR : ∀ z, R z → ∀ e, Q (.error e) z)
      (hx : (discardStagedFile rootDirectory p name).Ends y fun _ z => R z) :
      ((suppressOSError (discardStagedFile rootDirectory p name)).Ends y fun r z =>
        ∀ e, Q (.error e) z) := by
    refine Program.Ends.handle hx (fun _ z hz => hR z hz) fun e z hz => ?_
    cases e <;> exact hR z hz
  refine Program.Ends.bind (R := fun _ z => ∀ e, Q (.error e) z) ?_ (fun _ z hz => ?_)
    fun e z hz => hz e
  · have hgone (z : World) (hrel : Relinked loc c none y.root z.root) (hy : y.root = v.root) :
        Touched loc u.root z.root := by
      obtain ⟨c',_,_,_,hc',_,_,_,_,htemp⟩ := hup.temporary.file
      cases hwait.nameOf.symm.trans hc'
      exact htemp.cancel (hy ▸ hrel) hnone
    have hdiscard (hy : y.root = v.root) :
        (discardStagedFile rootDirectory p name).Ends y fun _ z => ∀ e, Q (.error e) z := by
      refine ends_discardStagedFile (hwait.root hy) (fun r z hno => ?_) fun r z hrel hk'' e => ?_
      · exact absurd (hcalm _ _ _ _ hstage hcommit hky.env) hno
      · exact hfail (hgone z hrel hy) hk''
    rcases hleft with hy | ⟨d,fd',u',x,hrev,hclose,hy⟩
    · exact hraise (fun z h => h) (hdiscard hy)
    · by_cases hcd : c = d
      · subst d
        rcases hrev.renamed.moved with ⟨_,hsame⟩ | ⟨hne,_⟩
        · exact hraise (fun z h => h) (hdiscard (hy.trans (hsame.trans hroot)))
        · exact absurd rfl hne
      · refine hraise (fun z h => h) (ends_discardStagedFile_gone hp hup.place
          hup.temporary.component hwait.nameOf ?_ fun r z hz hk'' e => ?_)
        · rw [hy,hrev.renamed.gone hcd]
        · exact hrevealed fd name loc u v v' c d _ fd' u' x e z hst hwait.nameOf hcd hrev
            hclose (hz.trans hy) (hky.step hk'')
  · split <;> exact hz _

/-- Where the environment is reliable and the temporary file does not stay, either the body is at the
path, or at most directories were made. -/
theorem ends_writeFile {content : Content} {maxFileSize : ℕ}
    {Q : Except (Exc AppError) Unit → World → Prop} (henv : w.env.Reliable)
    (hkept : ¬HandoverLeaks q w) (hq : normalizeSubPath q = .ok p)
    (herror : ∀ e v, Grown dirMode (way (split p).dropLast) w.root v.root → w.Keeps w.nextFd v →
      Q (.error e) v)
    (hok : ∀ loc c b t v, place (split p) = some (loc ++ [c]) → Grown dirMode loc w.root t →
      b.mode = tempMode → (∀ m, t.get (loc ++ [c]) = some m → m.isDir = false) →
      Relinked loc c (some (.file b content.body)) t v.root → w.Keeps w.nextFd v → Q (.ok ()) v) :
    (writeFile rootDirectory maxFileSize q content).Ends w Q := by
  have hclose {v : World} (hk : w.Keeps w.nextFd v) : v.env.fault .close v.calls = none := by
    rw [hk.env]
    exact henv _ _ (by decide)
  refine ends_writeFile_tidy (tidy_of_reliable henv) hq (fun st v e u _ _ hu => ?_) herror
    (fun e v h => absurd h hkept) ?_ ?_ ?_
  · exact World.calm_of_reliable (hu ▸ henv)
  · exact fun fd name loc u v e x hup hno _ _ => absurd (hclose hup.keeps) hno
  · exact fun fd name loc u v v' c d n fd' u' x e y hst _ _ hrev hno _ _ =>
      absurd (hclose (hst.keepsAll.step hrev.keeps)) hno
  · intro fd name loc u v v' c d n fd' u' x y hst hc hrev _ hy hk
    obtain ⟨b,hmode,rfl,hrel,hold⟩ := hst.temporary.renamed hc (hst.root ▸ hrev.renamed)
    exact hok loc d b u.root y hrev.place hst.grown hmode hold (hy ▸ hrel) hk

/-- `Session.delete_file`. -/
theorem ends_deleteFile {Q : Except (Exc AppError) Unit → World → Prop} (henv : w.env.Reliable)
    (ht : Traversable w.root) (hq : normalizeSubPath q = .ok p)
    (herror : ∀ e v, v.root = w.root → w.Keeps w.nextFd v → Q (.error e) v)
    (hok : ∀ loc c n v, place (split p) = some (loc ++ [c]) → w.root.get (loc ++ [c]) = some n →
      n.isDir = false → Relinked loc c none w.root v.root → w.Keeps w.nextFd v → Q (.ok ()) v) :
    (deleteFile rootDirectory q).Ends w Q := by
  have hp := normalizeSubPath_normalised hq
  unfold deleteFile
  rw [normalize_eq hq,Program.pure_bind]
  refine ends_openParent henv ht hp (fun r e v _ _ hroot hk => herror e v hroot hk) ?_
  intro fd loc a es v hloc hdir hroot hk hle hhas
  have hsearch := (ht.mode loc a es hdir).2
  have hfail {e : Exc AppError} {u : World} (hu : v.Quiet u) :
      v.Keeps v.nextFd u ∧ ∀ x, u.Closed fd x → Q (.error e) x := by
    refine ⟨hu.keeps _,fun x hx => herror e x ?_ ((hk.step (hu.keeps _)).trans (hx.keeps hle))⟩
    rw [hx.root,hu.root,hroot]
  refine Program.Ends.bind (R := fun r u => v.Quiet u) ?_ (fun st u hu => ?_) fun e u hu => hfail hu
  · exact Os.ends_stat (hk.env ▸ henv) (component_lastPart hp) hhas (hroot ▸ hdir) hsearch
      (fun _ e u hu _ => hu) (fun c _ _ u hu => hu) fun c n _ _ u hu => hu
  dsimp only
  split_ifs
  · exact hfail hu
  refine Os.ends_unlink (component_lastPart hp) ((hu.keeps _).has hhas) (hu.root ▸ hroot ▸ hdir)
    (fun e x hx _ => hfail (hu.trans hx)) fun c n x hc hn hfile hx => ?_
  have hplace : place (split p) = some (loc ++ [c]) := by
    obtain ⟨d,hd,hloc'⟩ := dirFrom_ok hloc
    rw [split_eq,place_append,hd,hc,hloc']
    rfl
  refine ⟨(hu.keeps _).step hx.keeps,fun y hy => hok _ c n y hplace ?_ hfile ?_ ?_⟩
  · rw [← hn]
    exact Node.get_entry hdir c
  · rw [hy.root,← hroot,← hu.root]
    exact hx.tree
  · exact ((hk.step (hu.keeps _)).step hx.keeps).trans (hy.keeps hle)

end Session
end CodeExecutorApi
