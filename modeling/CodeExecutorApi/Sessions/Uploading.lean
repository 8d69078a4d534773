import Mathlib.Order.Interval.Set.Defs
import CodeExecutorApi.Sessions.Outcomes

/-! What writing a file of a session comes to in any tree. -/
namespace CodeExecutorApi
open Python Posix Machine

/-- What the loop over the reads of a body comes to, with `size` bytes taken in already. -/
def reception (maxSize : ℕ) : ℕ → List (Except (Exc AppError) Bytes) → Except (Exc AppError) ℕ
  | size, [] => .ok size
  | size, read :: reads =>
    match read with
    | .error e => .error e
    | .ok [] => .ok size
    | .ok chunk =>
      if maxSize < size + chunk.length then .error (.app .requestEntityTooLarge)
      else reception maxSize (size + chunk.length) reads

def Content.reception (maxSize : ℕ) (content : Content) : Except (Exc AppError) ℕ :=
  CodeExecutorApi.reception maxSize 0 (prepareReader content)

/-- The body can be read, and it is not too large. -/
def Content.Fits (maxSize : ℕ) (content : Content) : Prop := ∃ n, content.reception maxSize = .ok n

/-- Each read of the body gives bytes. -/
def Content.Arrives (content : Content) : Prop := ∀ read ∈ prepareReader content, ∃ b, read = .ok b

theorem reception_arrives {reads : List (Except (Exc AppError) Bytes)} {maxSize size : ℕ}
    (hreads : ∀ read ∈ reads, ∃ b, read = .ok b) (hsize : size ≤ maxSize) :
    reception maxSize size reads =
      if maxSize < size + (bodyOf reads).length then .error (.app .requestEntityTooLarge)
      else .ok (size + (bodyOf reads).length) := by
  induction reads generalizing size with
  | nil => exact (if_neg hsize.not_gt).symm
  | cons read reads ih =>
    obtain ⟨chunk,rfl⟩ := hreads read (by simp)
    cases chunk with
    | nil => exact (if_neg hsize.not_gt).symm
    | cons byte chunk =>
      have hlen : (bodyOf (.ok (byte :: chunk) :: reads)).length =
          (byte :: chunk).length + (bodyOf reads).length := List.length_append
      rw [hlen,← Nat.add_assoc]
      change (if maxSize < size + (byte :: chunk).length then _ else _) = _
      split_ifs with hlarge hmore hmore
      · rfl
      · omega
      · rw [ih (fun read h => hreads read (by simp [h])) (not_lt.mp hlarge),if_pos hmore]
      · rw [ih (fun read h => hreads read (by simp [h])) (not_lt.mp hlarge),if_neg hmore]

theorem Content.Arrives.reception {content : Content} {maxSize : ℕ} (h : content.Arrives) :
    content.reception maxSize =
      if maxSize < content.body.length then .error (.app .requestEntityTooLarge)
      else .ok content.body.length := by
  rw [Content.reception,reception_arrives h (Nat.zero_le _),Nat.zero_add]
  rfl

theorem Content.Arrives.fits_iff {content : Content} {maxSize : ℕ} (h : content.Arrives) :
    content.Fits maxSize ↔ content.body.length ≤ maxSize := by
  rw [Fits,h.reception,← not_lt]
  split_ifs with hlarge <;> simp [hlarge]

/-- What `token_urlsafe(8)` can give. Eight bytes take eleven digits, and only two bits of the last
one are left over, which are zero. -/
def Drawable (digits : List (Fin 64)) : Prop :=
  digits.length = 11 ∧ ∀ d ∈ digits.getLast?, d.val % 4 = 0

instance (digits : List (Fin 64)) : Decidable (Drawable digits) :=
  inferInstanceAs (Decidable (_ ∧ _))

def tempName (digits : List (Fin 64)) : Str := tempPrefix ++ digits.map Os.digit

theorem ascii_tempName {digits : List (Fin 64)} {c : CodePoint} (hc : c ∈ tempName digits) :
    c.val < 0x80 := by
  have hlit : ∀ c ∈ tempPrefix, c.val < 0x80 := by simp [tempPrefix,lit]
  have hdigit : ∀ d : Fin 64, (Os.digit d).val < 0x80 := by decide +kernel
  rw [tempName,List.mem_append,List.mem_map] at hc
  rcases hc with hc | ⟨d,_,rfl⟩
  · exact hlit c hc
  · exact hdigit d

/-- A temporary name is never too long. -/
theorem exists_nameOf_tempName {digits : List (Fin 64)} (h : digits.length = 11) :
    ∃ c, nameOf (tempName digits) = some c := by
  have hs : Component (tempName digits) := tempName_component digits
  have hb := fsencode_ascii fun c (hc : c ∈ tempName digits) => ascii_tempName hc
  have hlit : tempPrefix.length = 22 := rfl
  refine ⟨⟨_,isName_of_plain hs.toPlain hb (nul_notMem_fsencode hs hb)⟩,?_⟩
  rw [nameOf,hb,Option.bind_some,dif_pos]
  refine ⟨isName_of_plain hs.toPlain hb (nul_notMem_fsencode hs hb),?_⟩
  simp [tempName,hlit,h,nameMax]

/-- Entries can be added to the directory and looked up in it. -/
def Changeable (m : Mode) : Prop := m.search = true ∧ m.write = true

/-- A name that one of the given calls draws is there already. -/
def Taken (env : Environment) (drawn : Set ℕ) (t : Node) (loc : Loc) : Prop :=
  ∃ n ∈ drawn, ∃ c, nameOf (tempName (env.random n)) = some c ∧ t.get (loc ++ [c]) ≠ none

def Free (env : Environment) (t : Node) (loc : Loc) : Prop :=
  ∃ n c, nameOf (tempName (env.random n)) = some c ∧ t.get (loc ++ [c]) = none

/-- How writing a temporary file at a place can fail. -/
inductive Unwritten (env : Environment) (drawn : Set ℕ) (maxSize : ℕ) (content : Content) (m : Mode)
    (t : Node) (loc : Loc) : Exc AppError → Prop
  | full {e : Exc AppError} (h : IsFull env e) : Unwritten env drawn maxSize content m t loc e
  | locked {e : Exc AppError} (h : ¬Changeable m) (he : Refusal e) :
    Unwritten env drawn maxSize content m t loc e
  | taken (h : Taken env drawn t loc) :
    Unwritten env drawn maxSize content m t loc (Os.oserror .eexist)
  | unread {e : Exc AppError} (h : Changeable m) (hfree : Free env t loc)
    (he : content.reception maxSize = .error e) : Unwritten env drawn maxSize content m t loc e

namespace Session
variable {w : World} {fd : ℕ} {loc : Loc} {c : Name} {a : Attr} {es : List (Name × Node)}
  {name : Str}

/-- Why the temporary file cannot be made. -/
theorem ends_openTemp (hs : Component name) (hc : nameOf name = some c) (hfd : w.Has fd loc)
    (hdir : w.root.get loc = some (.dir a es)) :
    (Os.open_ name tempFlags tempMode (some fd) : Api ℕ).Ends w fun r _ => ∀ e, r = .error e →
      Os.Faulted .create w e ∨ ¬Changeable a.mode ∧ Refusal e ∨
        w.root.get (loc ++ [c]) ≠ none ∧ e = Os.oserror .eexist := by
  refine Os.ends_lookup hs hfd hdir (fun hno e v hv he e' h => ?_) fun d hd hsearch => ?_
  · cases h
    rcases he with he | he
    · refine .inr (.inl ⟨fun hm => ?_,he⟩)
      rw [hc,hm.1] at hno
      simp at hno
    · exact .inl he
  cases hc.symm.trans hd
  refine Os.ends_syscall (fun e he e' h => ?_) (fun e he e' h => ?_) fun x v _ e' h => ?_
  · cases h
    exact .inl ⟨e,he,rfl⟩
  · cases h
    rw [World.openLoc,Os.writable_entry hdir] at he
    cases hn : w.root.get (loc ++ [c]) with
    | some n =>
      rw [hn] at he
      cases he
      exact .inr (.inr ⟨by simp,rfl⟩)
    | none =>
      rw [hn] at he
      by_cases hwrite : a.mode.write = true
      · rw [if_pos hwrite] at he
        cases he
      · rw [if_neg hwrite] at he
        cases he
        exact .inr (.inl ⟨fun hm => hwrite hm.2,.inr rfl⟩)
  · cases h

/-- A body is written as it is received, unless storage runs out. -/
theorem ends_writeContent_any {content : Bytes} {reads : List (Except (Exc AppError) Bytes)}
    {maxSize size : ℕ} (henv : w.env.Steady) (hfd : w.Has fd (loc ++ [c]))
    (hfile : w.root.get (loc ++ [c]) = some (.file a content)) :
    (writeContent fd maxSize size reads).Ends w fun r v => v.env = w.env ∧
      (r = reception maxSize size reads ∨ ∃ e, r = .error e ∧ IsFull w.env e) := by
  induction reads generalizing w size content a with
  | nil => exact ⟨rfl,.inl rfl⟩
  | cons read reads ih =>
    refine Program.Ends.bind (R := fun r v => r = .ok () ∧ w.Quiet v) ?_ ?_ fun e v h => by
      cases h.1
    · refine ⟨?_,World.quiet_tick w⟩
      unfold Os.checkpoint
      rw [henv.interrupt]
      rfl
    rintro _ v ⟨-,hv⟩
    cases read with
    | error e => exact ⟨hv.env,.inl rfl⟩
    | ok chunk =>
      cases chunk with
      | nil => exact ⟨hv.env,.inl rfl⟩
      | cons byte chunk =>
        dsimp only
        split_ifs with hsize
        · exact ⟨hv.env,.inl (if_pos hsize).symm⟩
        have hread : reception maxSize size (.ok (byte :: chunk) :: reads) =
            reception maxSize (size + (byte :: chunk).length) reads := if_neg hsize
        rw [hread]
        refine Program.Ends.bind (R := fun r u => u.env = w.env ∧ match r with
          | .error e => IsFull w.env e
          | .ok () => ∃ b content', v.Relinks loc c (some (.file b content')) u) ?_ ?_ ?_
        · refine Os.ends_awaitThread_steady (hv.env ▸ henv) fun u hu => ?_
          have hwu := hv.trans hu
          refine Os.ends_write ((hwu.keeps _).has hfd) (hwu.root ▸ hfile) (fun e x he hx => ?_)
            fun b x _ hx => ?_
          · refine ⟨hu.env ▸ hx.env,fun t ht => ⟨ht.env.trans (hx.env.trans hwu.env),?_⟩⟩
            exact hwu.env ▸ isFull_of_faulted (hwu.env ▸ henv) ⟨e,he,rfl⟩
          · refine ⟨hu.env ▸ hx.keeps.env,fun t ht => ⟨ht.env.trans (hx.keeps.env.trans hwu.env),b,
              content ++ byte :: chunk,?_⟩⟩
            exact (hu.relinks hx).quiet ht
        · rintro _ u ⟨henv',b,content',hu⟩
          refine (ih (henv' ▸ henv) (hu.keeps.has ((hv.keeps _).has hfd))
            (hu.tree.get_entry [])).mono fun r x hx => ?_
          rw [henv'] at hx
          exact hx
        · rintro e u ⟨henv',hfull⟩
          exact ⟨henv',.inr ⟨e,rfl,hfull⟩⟩

/-- The temporary file of an upload can be removed. -/
theorem ends_unlinkTemp {b : Attr} {body : Bytes} {v : World} (henv : w.env.Steady)
    (hs : Component name) (hc : nameOf name = some c) (hfd : w.Has fd loc)
    (hdir : w.root.get loc = some (.dir a es)) (hm : Changeable a.mode)
    (hv : w.Relinks loc c (some (.file b body)) v) :
    (suppressFileNotFound (Os.unlink name fd)).Ends v fun r _ => r = .ok () := by
  obtain ⟨_,_,a',es',hget,hdir',hmode',_,hlookup⟩ := hv.tree.get_loc
  cases hdir.symm.trans hget
  refine ends_unlinkStaged hs hc (hv.keeps.has hfd) hdir' hlookup rfl (hmode' ▸ hm.1)
    (hmode' ▸ hm.2) (fun r y hy hno => ?_) fun y hy => rfl
  rw [hv.keeps.env] at hno
  exact absurd (henv.reliable _ _ (by decide)) hno

/-- The body goes into the temporary file. -/
theorem ends_writeTemp {content : Content} {maxSize : ℕ} {b : Attr} {v : World}
    (henv : v.env.Steady) (hfd : v.Has fd (loc ++ [c]))
    (hfile : v.root.get (loc ++ [c]) = some (.file b [])) :
    ((writeFileContent fd content maxSize).ensure (Os.awaitThread (Os.close fd))).Ends v
      fun r u => (∃ b' body, Relinked loc c (some (.file b' body)) v.root u.root ∧ v.Keeps fd u) ∧
        (r = content.reception maxSize ∨ ∃ e, r = .error e ∧ IsFull v.env e) := by
  refine Program.Ends.ensure (Program.Ends.and
    (ends_writeContent (Q := fun r u => ∃ b' body, v.Relinks loc c (some (.file b' body)) u) hfd hfile
      fun r b' body u _ hu _ => ⟨b',body,hu⟩)
    (ends_writeContent_any henv hfd hfile)) ?_
  rintro r u ⟨⟨b',body,hu⟩,henv',hr⟩
  refine Os.ends_awaitThread_steady (henv' ▸ henv) fun x hx => ?_
  refine Os.ends_close_reliable (hx.env ▸ henv' ▸ henv.reliable)
    ((hx.keeps _).has (hu.keeps.has hfd)) fun y hy => ⟨hy.env.trans hx.env,fun t ht => ⟨rfl,?_⟩⟩
  have hroot : t.root = u.root := ht.root.trans (hy.root.trans hx.root)
  refine ⟨⟨b',body,hroot ▸ hu.tree,?_⟩,hr⟩
  exact (((hu.keeps.step (hx.keeps _)).mono hfd.lt.le).trans (hy.keeps le_rfl)).trans (ht.keeps _)

/-- `write_file_to_temp`, in full. -/
theorem ends_writeFileToTemp_any {content : Content} {maxSize : ℕ} (henv : w.env.Steady)
    (hdrawn : ∀ n, Drawable (w.env.random n)) (hfd : w.Has fd loc)
    (hdir : w.root.get loc = some (.dir a es)) :
    (writeFileToTemp fd content maxSize).Ends w fun r _ => match r with
      | .ok _ => Changeable a.mode ∧ Free w.env w.root loc ∧ content.Fits maxSize
      | .error e => Unwritten w.env {w.calls} maxSize content a.mode w.root loc e := by
  have hs := tempName_component (w.env.random w.calls)
  obtain ⟨c,hc⟩ := exists_nameOf_tempName (hdrawn w.calls).1
  have hdraw : nameOf (tempName (w.env.random w.calls)) = some c := hc
  rw [tempName] at hc
  unfold writeFileToTemp
  refine Program.Ends.bind (R := fun r v => r = .ok ((w.env.random w.calls).map Os.digit) ∧
    w.Quiet v) ⟨rfl,World.quiet_tick w⟩ ?_ fun e v hv => by cases hv.1
  rintro _ v ⟨⟨⟩,hv⟩
  dsimp only
  generalize tempPrefix ++ (w.env.random w.calls).map Os.digit = name at hs hc
  have hvfd := (hv.keeps _).has hfd
  have hvdir : v.root.get loc = some (.dir a es) := hv.root ▸ hdir
  have hvenv : v.env.Steady := hv.env ▸ henv
  refine Program.Ends.bind (R := fun r u => match r with
    | .error e => Unwritten w.env {w.calls} maxSize content a.mode w.root loc e
    | .ok fd' => v.nextFd ≤ fd' ∧ Changeable a.mode ∧ Free w.env w.root loc ∧ ∃ b,
        v.Relinks loc c (some (.file b [])) u ∧ u.Has fd' (loc ++ [c])) ?_ ?_ fun e u h => h
  · refine (Program.Ends.and (Os.ends_create (Q := fun r u => ∀ fd', r = .ok fd' → v.nextFd ≤ fd' ∧
      Changeable a.mode ∧ v.root.get (loc ++ [c]) = none ∧ ∃ b,
        v.Relinks loc c (some (.file b [])) u ∧ u.Has fd' (loc ++ [c])) hs hvfd hvdir rfl rfl
      (fun e u _ fd' h => by cases h) fun d b u hd hnone hsearch hwrite hmode htree hu fd' h => ?_)
      (ends_openTemp hs hc hvfd hvdir)).mono ?_
    · cases h
      cases hc.symm.trans hd
      refine ⟨le_rfl,⟨hsearch,hwrite⟩,by rw [Node.get_entry hvdir,hnone],b,⟨htree,hu.keeps⟩,hu.has⟩
    · rintro r u ⟨hok,herror⟩
      cases r with
      | ok fd' =>
        obtain ⟨hle,hm,hnone,hrest⟩ := hok fd' rfl
        exact ⟨hle,hm,⟨w.calls,c,hdraw,hv.root ▸ hnone⟩,hrest⟩
      | error e =>
        rcases herror e rfl with hfault | ⟨hm,he⟩ | ⟨hn,rfl⟩
        · exact .full (hv.env ▸ isFull_of_faulted hvenv hfault)
        · exact .locked hm he
        · exact .taken ⟨w.calls,rfl,c,hdraw,hv.root ▸ hn⟩
  rintro fd' u ⟨hle,hm,hfree,b,hu,hhas⟩
  have huenv : u.env.Steady := hu.keeps.env ▸ hvenv
  -- the file object is made
  refine Program.Ends.bind (R := fun r x => r = .ok () ∧ u.Quiet x) ?_ ?_ fun e x h => by cases h.1
  · refine Program.Ends.onError (R := fun r x => r = .ok () ∧ u.Quiet x) ?_ (fun _ x h => h)
      fun e x h => by cases h.1
    exact Os.ends_awaitFdopen_steady huenv fun x hx => ⟨rfl,hx⟩
  rintro _ x ⟨-,hx⟩
  have hux := hu.quiet hx
  refine Program.Ends.bind (R := fun r y => match r with
    | .error e => Unwritten w.env {w.calls} maxSize content a.mode w.root loc e
    | .ok _ => content.Fits maxSize) ?_ (fun n y hfits => ⟨hm,hfree,hfits⟩) fun e y h => h
  refine Program.Ends.onError (ends_writeTemp (hx.env ▸ huenv) ((hx.keeps _).has hhas)
    (hux.tree.get_entry [])) (fun n y h => ?_) fun e y h => ?_
  · obtain ⟨_,hread | ⟨e,he,_⟩⟩ := h
    · exact ⟨n,hread.symm⟩
    · cases he
  obtain ⟨⟨b',body,htree,hk⟩,he⟩ := h
  have hy : v.Relinks loc c (some (.file b' body)) y :=
    ⟨hux.tree.comp htree,hux.keeps.trans (hk.mono hle)⟩
  refine (ends_unlinkTemp hvenv hs hc hvfd hvdir hm hy).mono fun r z hr => ⟨hr,?_⟩
  have henv' : x.env = w.env := hx.env.trans (hu.keeps.env.trans hv.env)
  rcases he with hread | ⟨e',he',hfull⟩
  · exact .unread hm hfree hread.symm
  · cases he'
    exact .full (henv' ▸ hfull)

/-- The walk leaves alone what is in the directory it ends in. -/
theorem get_walked {createDir : Bool} {v : World} (hw : Walked createDir loc w v) (c : Name) :
    v.root.get (loc ++ [c]) = w.root.get (loc ++ [c]) := by
  apply hw.grown.beside
  intro h
  exact absurd h.length_le (by simp)

theorem modeAt_walked {createDir : Bool} {v : World} (hw : Walked createDir loc w v)
    (hdir : v.root.get loc = some (.dir a es)) : modeAt w.root loc = a.mode := by
  have habove := hw.grown.above loc List.prefix_rfl
  unfold modeAt
  cases hn : w.root.get loc with
  | none =>
    rcases habove.missing hn with h | ⟨b,bs,h,hkept⟩
    · rw [hdir] at h
      cases h
    · cases hdir.symm.trans h
      exact hkept.mode.symm
  | some n =>
    cases n with
    | dir b bs =>
      obtain ⟨b',bs',h,hkept⟩ := habove.dir b bs hn
      cases hdir.symm.trans h
      exact hkept.mode.symm
    | file | symlink | special =>
      cases hdir.symm.trans (habove.other _ hn rfl)

theorem free_walked {createDir : Bool} {v : World} (hw : Walked createDir loc w v)
    (h : Free w.env v.root loc) : Free w.env w.root loc := by
  obtain ⟨n,c,hc,hn⟩ := h
  exact ⟨n,c,hc,get_walked hw c ▸ hn⟩

theorem unwritten_walked {createDir : Bool} {v : World} {drawn : Set ℕ} {maxSize : ℕ}
    {content : Content} {m : Mode} {e : Exc AppError} (hw : Walked createDir loc w v)
    (henv : v.env = w.env) (h : Unwritten v.env drawn maxSize content m v.root loc e) :
    Unwritten w.env drawn maxSize content m w.root loc e := by
  rw [henv] at h
  cases h with
  | full h => exact .full h
  | locked h he => exact .locked h he
  | taken h =>
    obtain ⟨n,hn,c,hc,htaken⟩ := h
    exact .taken ⟨n,hn,c,hc,get_walked hw c ▸ htaken⟩
  | unread h hfree he => exact .unread h (free_walked hw hfree) he

theorem unwritten_mono {env : Environment} {drawn drawn' : Set ℕ} {maxSize : ℕ} {content : Content}
    {m : Mode} {t : Node} {e : Exc AppError} (h : Unwritten env drawn maxSize content m t loc e)
    (hdrawn : drawn ⊆ drawn') : Unwritten env drawn' maxSize content m t loc e := by
  cases h with
  | full h => exact .full h
  | locked h he => exact .locked h he
  | taken h =>
    obtain ⟨n,hn,htaken⟩ := h
    exact .taken ⟨n,hdrawn hn,htaken⟩
  | unread h hfree he => exact .unread h hfree he

theorem mkdirIfMissing_later (s : Str) (fd : ℕ) : (mkdirIfMissing s fd).Within World.Later := by
  refine (Os.mkdir_later s dirMode fd).handle fun e => ?_
  cases e with
  | os cls errno => cases cls <;> first | exact .pure _ | exact .raise _
  | valueError | unicodeEncodeError | cancelled | app => exact .raise _

theorem makeParts_later (fd : ℕ) (parts : List Str) :
    (enterParts true fd parts).Within World.Later := by
  induction parts generalizing fd with
  | nil => exact .pure _
  | cons s parts ih =>
    refine Program.Within.bind (Program.Within.onError ?_ (Os.close_later fd)) fun fd' => ih fd'
    exact (mkdirIfMissing_later s fd).bind fun _ => (mapErrno_later (Os.open_later s _ _ _)).bind
      fun _ => (Os.close_later fd).bind fun _ => .pure _

theorem makeParent_later (p : Str) :
    (enterParent rootDirectory p true).Within World.Later :=
  (Os.open_later _ _ _ _).bind fun fd => makeParts_later fd _

theorem suppressFileNotFound_later {x : Api Unit} (hx : x.Within World.Later) :
    (suppressFileNotFound x).Within World.Later := by
  refine hx.handle fun e => ?_
  cases e with
  | os cls errno => cases cls <;> first | exact .pure _ | exact .raise _
  | valueError | unicodeEncodeError | cancelled | app => exact .raise _

theorem writeContent_later (fd maxSize size : ℕ) (reads : List (Except (Exc AppError) Bytes)) :
    (writeContent fd maxSize size reads).Within World.Later := by
  induction reads generalizing size with
  | nil => exact .pure _
  | cons read reads ih =>
    refine Os.checkpoint_later.bind fun _ => ?_
    split
    · exact .raise _
    · exact .pure _
    · split_ifs
      · exact .raise _
      · exact (Os.awaitThread_later (Os.write_later _ _)).bind fun _ => ih _

/-- The name of a temporary file is drawn by the first call, and there are more calls. -/
theorem ends_writeFileToTemp_drawn (fd : ℕ) (content : Content) (maxSize : ℕ) :
    (writeFileToTemp fd content maxSize).Ends w fun r v => w.Later v ∧ w.calls < v.calls ∧
      ∀ st, r = .ok st → st.1 = tempName (w.env.random w.calls) := by
  have hunlink (name : Str) := suppressFileNotFound_later (Os.unlink_later (ε := AppError) name fd)
  unfold writeFileToTemp
  refine Program.Ends.bind (R := fun r v => r = .ok ((w.env.random w.calls).map Os.digit) ∧
    v = w.tick) ⟨rfl,rfl⟩ ?_ fun e v h => by cases h.1
  rintro _ v ⟨⟨⟩,rfl⟩
  dsimp only
  refine Program.Ends.mono (Program.Ends.within (R := World.Later) (Q := fun r _ =>
    ∀ st, r = .ok st → st.1 = tempName (w.env.random w.calls)) ?_ ?_) fun r v h => ?_
  · refine Program.Ends.bind (R := fun _ _ => True) trivial (fun fd' u _ => ?_)
      fun e u _ st h => by cases h
    refine Program.Ends.bind (R := fun _ _ => True) trivial (fun _ u _ => ?_)
      fun e u _ st h => by cases h
    refine Program.Ends.bind (R := fun _ _ => True) trivial (fun size u _ => ?_)
      fun e u _ st h => by cases h
    rintro _ ⟨⟩
    rfl
  · refine (Os.open_later _ _ _ _).bind fun fd' => ?_
    refine .bind (.onError (Os.awaitFdopen_later _) ?_) fun _ => ?_
    · exact (Os.close_later _).bind fun _ => hunlink _
    · refine .bind (.onError (.ensure (writeContent_later _ _ _ _) ?_) (hunlink _)) fun _ => .pure _
      exact Os.awaitThread_later (Os.close_later _)
  · obtain ⟨hlater,hname⟩ := h
    exact ⟨⟨hlater.env,(Nat.le_succ _).trans hlater.calls⟩,hlater.calls,hname⟩

/-- A file can be put next to the path. -/
def Ready (env : Environment) (t : Node) (p : Str) : Prop :=
  ∃ loc, parentOf true t p = .ok loc ∧ Changeable (modeAt t loc) ∧ Free env t loc

/-- The `except` clauses of `stage_file`. -/
def stageError : Exc AppError → Exc AppError
  | .app .requestEntityTooLarge => .app (.sessionResourceLimitReached "File size limit reached")
  | .os _ (some .enospc) | .os _ (some .edquot) => storageLimit
  | e => e

/-- How `stage_file` can fail, by the tree it starts from. -/
inductive Unstaged (env : Environment) (drawn : Set ℕ) (maxSize : ℕ) (content : Content) (t : Node)
    (p : Str) : Exc AppError → Prop
  | full (h : ∃ call n, env.fault call n ≠ none) :
    Unstaged env drawn maxSize content t p storageLimit
  | barrier {b : Barrier} {e : Exc AppError} (h : parentOf true t p = .error b) (he : b.Raises e) :
    Unstaged env drawn maxSize content t p e
  | locked {loc : Loc} {e : Exc AppError} (h : parentOf true t p = .ok loc)
    (hm : ¬Changeable (modeAt t loc)) (he : Refusal e) : Unstaged env drawn maxSize content t p e
  | taken {loc : Loc} (h : parentOf true t p = .ok loc) (ht : Taken env drawn t loc) :
    Unstaged env drawn maxSize content t p (Os.oserror .eexist)
  | unread {e : Exc AppError} (h : Ready env t p) (he : content.reception maxSize = .error e) :
    Unstaged env drawn maxSize content t p (stageError e)

/-- `Session.stage_file`, in full. Its temporary file has a name that was drawn on the way. -/
theorem ends_stageFile_any {content : Content} {maxSize : ℕ} {q p : Str} (henv : w.env.Steady)
    (hdrawn : ∀ n, Drawable (w.env.random n)) (ht : w.root.isDir = true)
    (hq : normalizeSubPath q = .ok p) :
    (stageFile rootDirectory maxSize q content).Ends w fun r x => w.Later x ∧ match r with
      | .ok st => Ready w.env w.root p ∧ content.Fits maxSize ∧
          ∃ n ∈ Set.Ico w.calls x.calls, st.2 = tempName (w.env.random n)
      | .error e => Unstaged w.env (Set.Ico w.calls x.calls) maxSize content w.root p e := by
  have hp := normalizeSubPath_normalised hq
  unfold stageFile
  rw [normalize_ok hq,Program.pure_bind]
  refine Program.Ends.bind (R := fun r x => w.Later x ∧ match r with
    | .error e => Unstaged w.env (Set.Ico w.calls x.calls) maxSize content w.root p e
    | .ok name => Ready w.env w.root p ∧ content.Fits maxSize ∧
        ∃ n ∈ Set.Ico w.calls x.calls, name = tempName (w.env.random n)) ?_ (fun name v h => h)
    fun e v h => h
  -- the exceptions before they are translated
  refine Program.Ends.handle (R := fun r x => w.Later x ∧ match r with
    | .error e => IsFull w.env e ∨ (∃ b : Barrier, parentOf true w.root p = .error b ∧ b.Raises e) ∨
        ∃ loc, parentOf true w.root p = .ok loc ∧ Unwritten w.env (Set.Ico w.calls x.calls) maxSize
          content (modeAt w.root loc) w.root loc e
    | .ok name => Ready w.env w.root p ∧ content.Fits maxSize ∧
        ∃ n ∈ Set.Ico w.calls x.calls, name = tempName (w.env.random n)) ?_ (fun name v h => h)
    fun e v h => ?_
  · rw [openParent_eq fun _ => rfl]
    refine Program.Ends.bind ((ends_parentOf henv ht hp).within (makeParent_later p)) ?_ ?_
    · rintro fd v ⟨hv,loc,hloc,hhas,_,hk,_,hw,henter⟩
      obtain ⟨a,es,hdir,_⟩ := henter.dir
      have hmode := modeAt_walked hw hdir
      refine Program.Ends.ensure (R := fun r u => v.Keeps v.nextFd u ∧ v.Later u ∧
        v.calls < u.calls ∧ match r with
          | .error e => Unwritten w.env {v.calls} maxSize content (modeAt w.root loc) w.root loc e
          | .ok name => Ready w.env w.root p ∧ content.Fits maxSize ∧
              name = tempName (v.env.random v.calls)) ?_ fun r u hu => ?_
      · refine Program.Ends.bind (Program.Ends.and
          (ends_writeFileToTemp_any (hk.env ▸ henv) (hk.env ▸ hdrawn) hhas hdir)
          (Program.Ends.and (ends_writeFileToTemp_drawn fd content maxSize)
            (ends_writeFileToTemp (Q := fun _ u => v.Keeps v.nextFd u) hhas hdir
              (fun _ _ _ hk => hk) (fun _ _ _ _ hk => hk) fun _ _ _ _ _ hk => hk))) ?_ ?_
        · rintro ⟨name,size⟩ u ⟨⟨hm,hfree,hfits⟩,⟨hlater,hlt,hname⟩,hku⟩
          refine ⟨hku,hlater,hlt,?_,hfits,hname _ rfl⟩
          exact ⟨loc,hloc,hmode ▸ hm,free_walked hw (hk.env ▸ hfree)⟩
        · rintro e u ⟨h,⟨hlater,hlt,_⟩,hku⟩
          refine ⟨hku,hlater,hlt,?_⟩
          rw [hmode]
          exact unwritten_walked hw hk.env h
      · obtain ⟨hku,hu,hlt,hr⟩ := hu
        have hclose : (Os.close fd : Api Unit).Ends u fun r _ => r = .ok () :=
          Os.ends_close_reliable (hku.env ▸ hk.env ▸ henv.reliable) (hku.has hhas) fun _ _ => rfl
        refine (hclose.within (Os.close_later fd)).mono ?_
        rintro _ x ⟨hx,rfl⟩
        have hmem : v.calls ∈ Set.Ico w.calls x.calls := ⟨hv.calls,hlt.trans_le hx.calls⟩
        refine ⟨rfl,hv.trans (hu.trans hx),?_⟩
        cases r with
        | ok name =>
          obtain ⟨hready,hfits,hname⟩ := hr
          exact ⟨hready,hfits,v.calls,hmem,hk.env ▸ hname⟩
        | error e =>
          have hsub := Set.singleton_subset_iff.mpr hmem
          exact .inr (.inr ⟨loc,hloc,unwritten_mono hr hsub⟩)
    · rintro e v ⟨hv,⟨_,he⟩ | ⟨b,he,hb⟩,_⟩
      · exact ⟨hv,.inl he⟩
      · exact ⟨hv,.inr (.inl ⟨b,hb,he⟩)⟩
  · obtain ⟨hv,h⟩ := h
    suffices hun : Unstaged w.env (Set.Ico w.calls v.calls) maxSize content w.root p
        (stageError e) by
      have hraise : (Program.raise (stageError e) : Api Str).Ends v fun r x => w.Later x ∧
          match r with
          | .ok name => Ready w.env w.root p ∧ content.Fits maxSize ∧
              ∃ n ∈ Set.Ico w.calls x.calls, name = tempName (w.env.random n)
          | .error e => Unstaged w.env (Set.Ico w.calls x.calls) maxSize content w.root p e :=
        ⟨hv,hun⟩
      cases e with
      | os cls errno =>
        cases errno with
        | none => exact hraise
        | some e => cases e <;> exact hraise
      | app e => cases e <;> exact hraise
      | valueError | unicodeEncodeError | cancelled => exact hraise
    rcases h with ⟨hfault,rfl | rfl⟩ | ⟨b,hb,he⟩ | ⟨loc,hloc,h⟩
    · exact .full hfault
    · exact .full hfault
    · have hun : Unstaged w.env (Set.Ico w.calls v.calls) maxSize content w.root p e :=
        .barrier hb he
      cases b with
      | missing => rcases he with rfl | rfl <;> exact hun
      | refused => rcases he with (rfl | rfl) | rfl <;> exact hun
    · cases h with
      | full h =>
        obtain ⟨hfault,rfl | rfl⟩ := h
        · exact .full hfault
        · exact .full hfault
      | locked hm he =>
        have hun : Unstaged w.env (Set.Ico w.calls v.calls) maxSize content w.root p e :=
          .locked hloc hm he
        rcases he with (rfl | rfl) | rfl <;> exact hun
      | taken ht => exact .taken hloc ht
      | unread hm hfree he => exact .unread ⟨loc,hloc,hm,hfree⟩ he

/-- How putting a staged file in place in the directory at `loc` can fail. -/
inductive Uncommitted (env : Environment) (t : Node) (loc : Loc) (p : Str) : Exc AppError → Prop
  | full {e : Exc AppError} (h : IsFull env e) : Uncommitted env t loc p e
  | badName {e : Exc AppError} (h : nameOf (lastPart p) = none) (he : IsBadName e) :
    Uncommitted env t loc p e
  | isDirectory {d : Name} (h : nameOf (lastPart p) = some d) (hdir : loc ++ [d] ∈ t.dirs) :
    Uncommitted env t loc p (Os.oserror .eisdir)

theorem ends_replaceStaged {n : Node} {p : Str} (henv : w.env.Steady) (hs : Component name)
    (hp : Normalised p) (hfd : w.Has fd loc) (hdir : w.root.get loc = some (.dir a es))
    (hm : Changeable a.mode) (hc : nameOf name = some c) (hn : es.lookup c = some n)
    (hfile : n.isDir = false) :
    (Os.replace name (lastPart p) fd fd : Api Unit).Ends w fun r _ => ∀ e, r = .error e →
      Uncommitted w.env w.root loc p e := by
  have hs' := component_lastPart hp
  unfold Os.replace
  rw [Os.path_of_name hs hc,Program.pure_bind]
  rcases Os.path_component (ε := AppError) hs' with ⟨hno,hpath⟩ | ⟨b,hb,hpath⟩
  · rw [hpath]
    intro e h
    cases h
    exact .badName (Os.nameOf_of_unencodable hno) (.inl rfl)
  rw [hpath,Program.pure_bind]
  refine Os.ends_syscall (fun e he e' h => ?_) (fun e he e' h => ?_) fun x v _ e' h => by cases h
  · cases h
    exact .full (isFull_of_faulted henv ⟨e,he,rfl⟩)
  cases h
  rw [World.renameAt,Os.resolving_entry hs (nameOf_eq_some hc).1 hfd hdir hm.1,hc] at he
  dsimp only at he
  rw [Os.resolving_entry hs' hb hfd hdir hm.1] at he
  cases hd : nameOf (lastPart p) with
  | none =>
    rw [hd] at he
    cases he
    exact .badName hd (.inr rfl)
  | some d =>
    rw [hd] at he
    dsimp only at he
    rw [World.renameLoc,Node.get_entry hdir c,hn] at he
    dsimp only at he
    rw [Os.writable_entry hdir,Os.writable_entry hdir,if_pos hm.2] at he
    change (if loc ++ [c] = loc ++ [d] then _ else if _ then _ else _) = _ at he
    simp only [hfile,Bool.false_eq_true,false_and,if_false] at he
    by_cases heq : loc ++ [c] = loc ++ [d]
    · rw [if_pos heq] at he
      cases he
    rw [if_neg heq] at he
    cases hold : w.root.get (loc ++ [d]) with
    | none =>
      rw [hold] at he
      cases he
    | some m =>
      rw [hold] at he
      cases m with
      | dir b bs =>
        rw [World.replaceable,if_pos hfile] at he
        cases he
        exact .isDirectory hd ⟨b,bs,hold⟩
      | file | symlink | special =>
        simp only [World.replaceable,hfile,Bool.false_eq_true,if_false] at he
        cases he

/-- `Session.commit_staged_file` of a file that is there, in full. -/
theorem ends_commitStagedFile_any {n : Node} {p : Str} (henv : w.env.Steady)
    (hwait : Waiting p name loc c n w.root) :
    (commitStagedFile rootDirectory p name).Ends w fun r v => match r with
      | .ok _ => nameOf (lastPart p) ≠ none
      | .error e => v.root = w.root ∧ w.Keeps w.nextFd v ∧ Uncommitted w.env w.root loc p e := by
  have hp := hwait.normalised
  unfold commitStagedFile
  rw [openParent_eq fun _ => rfl]
  refine Program.Ends.bind (R := fun r u => ∃ fd, r = .ok fd ∧ u.root = w.root ∧
    w.Keeps w.nextFd u ∧ w.nextFd ≤ fd ∧ u.Has fd loc) ?_ ?_ fun e u h => by simp at h
  · exact ends_enterParent_calm (World.calm_of_reliable henv.reliable) hp hwait.place hwait.enterable
      fun fd v _ hroot hk hle hhas => ⟨fd,rfl,hroot,hk,hle,hhas⟩
  rintro _ u ⟨fd,⟨⟩,hroot,hk,hle,hhas⟩
  obtain ⟨a,es,hdir,hsearch,hwrite,hn⟩ := (hwait.root hroot).entry
  refine Program.Ends.ensure (Program.Ends.and
    (Os.ends_replace (Q := fun r x => match r with
      | .error _ => u.Quiet x
      | .ok _ => nameOf (lastPart p) ≠ none ∧ u.Keeps u.nextFd x) hwait.component
      (component_lastPart hp) hhas hdir hwait.nameOf hn hwait.file (fun e x hx => hx)
      fun d x hd _ hx => ⟨by simp [hd],hx⟩)
    (ends_replaceStaged (hk.env ▸ henv) hwait.component hp hhas hdir ⟨hsearch,hwrite⟩ hwait.nameOf hn
      hwait.file)) fun r x hx => ?_
  obtain ⟨hx,herror⟩ := hx
  cases r with
  | error e =>
    refine Os.ends_close_reliable (hx.env ▸ hk.env ▸ henv.reliable) ((hx.keeps _).has hhas)
      fun y hy => ⟨rfl,hy.root.trans (hx.root.trans hroot),?_,hroot ▸ hk.env ▸ herror e rfl⟩
    exact (hk.step (hx.keeps _)).trans (hy.keeps hle)
  | ok =>
    exact Os.ends_close_reliable (hx.2.env ▸ hk.env ▸ henv.reliable) (hx.2.has hhas)
      fun y _ => ⟨rfl,hx.1⟩

/-- A staged file can be discarded. -/
theorem ends_discardStagedFile_steady {n : Node} {p : Str} (henv : w.env.Steady)
    (hwait : Waiting p name loc c n w.root) :
    (discardStagedFile rootDirectory p name).Ends w fun r _ => r = .ok () := by
  have hp := hwait.normalised
  unfold discardStagedFile
  rw [openParent_eq fun _ => rfl]
  refine Program.Ends.bind (R := fun r u => ∃ fd, r = .ok fd ∧ u.root = w.root ∧
    w.Keeps w.nextFd u ∧ u.Has fd loc) ?_ ?_ fun e u h => by simp at h
  · exact ends_enterParent_calm (World.calm_of_reliable henv.reliable) hp hwait.place hwait.enterable
      fun fd v _ hroot hk _ hhas => ⟨fd,rfl,hroot,hk,hhas⟩
  rintro _ u ⟨fd,⟨⟩,hroot,hk,hhas⟩
  obtain ⟨a,es,hdir,hsearch,hwrite,hn⟩ := (hwait.root hroot).entry
  have huenv : u.env.Reliable := hk.env ▸ henv.reliable
  refine Program.Ends.ensure (ends_unlinkStaged (Q := fun r x => r = .ok () ∧ u.Keeps u.nextFd x)
    hwait.component hwait.nameOf hhas hdir hn hwait.file hsearch hwrite (fun r x _ hno => ?_)
    fun x hx => ⟨rfl,hx.keeps⟩) fun r x hx => ?_
  · exact absurd (huenv _ _ (by decide)) hno
  · exact Os.ends_close_reliable (hx.2.env ▸ huenv) (hx.2.has hhas) fun y _ => ⟨rfl,hx.1⟩

/-- How writing a file can fail, and what it takes to succeed. -/
inductive Writes (env : Environment) (maxSize : ℕ) (content : Content) (t : Node) (p : Str) :
    Except (Exc AppError) Unit → Prop
  | unstaged {drawn : Set ℕ} {e : Exc AppError} (h : Unstaged env drawn maxSize content t p e) :
    Writes env maxSize content t p (.error e)
  | badName {e : Exc AppError} (h : Ready env t p) (hfits : content.Fits maxSize)
    (hname : nameOf (lastPart p) = none) (he : IsBadName e) :
    Writes env maxSize content t p (.error e)
  | isDirectory (h : Ready env t p) (hfits : content.Fits maxSize)
    (hname : nameOf (lastPart p) ≠ none) :
    Writes env maxSize content t p (.error (Os.oserror .eisdir))
  | written (h : Ready env t p) (hfits : content.Fits maxSize)
    (hname : nameOf (lastPart p) ≠ none) : Writes env maxSize content t p (.ok ())

/-- `Session.write_file`, in full. -/
theorem ends_writeFile_any {content : Content} {maxSize : ℕ} {q p : Str} (henv : w.env.Steady)
    (hdrawn : ∀ n, Drawable (w.env.random n)) (ht : w.root.isDir = true)
    (hq : normalizeSubPath q = .ok p) :
    (writeFile rootDirectory maxSize q content).Ends w fun r _ =>
      Writes w.env maxSize content w.root p r := by
  have hp := normalizeSubPath_normalised hq
  refine Program.Ends.bind (Program.Ends.and
    (ends_stageFile_any henv hdrawn ht hq)
    (ends_stageFile (Q := fun r x => ∀ st, r = .ok st → ∃ name loc c n, st = (p,name) ∧
      Waiting p name loc c n x.root ∧ x.env = w.env) hq (fun e v _ _ st h => by cases h)
      (fun e v _ _ _ st h => by cases h) (fun fd name loc u v e x _ _ _ _ st h => by cases h)
      fun fd name loc u v x hup _ hroot hk st h => ?_)) ?_ fun e v h => .unstaged h.1.2
  · cases h
    obtain ⟨c,b,_,_,hwait⟩ := hup.waiting hp
    exact ⟨name,loc,c,_,rfl,hwait.root hroot,hk.env⟩
  rintro st v ⟨⟨_,hready,hfits,_⟩,hst⟩
  obtain ⟨name,loc,c,n,rfl,hwait,hvenv⟩ := hst st rfl
  have henv' : v.env.Steady := hvenv ▸ henv
  refine Program.Ends.handle (ends_commitStagedFile_any henv' hwait)
    (fun _ x hx => .written hready hfits hx) fun e x hx => ?_
  obtain ⟨hroot,hk,he⟩ := hx
  refine Program.Ends.bind (R := fun r _ => r = .ok ()) ?_ (fun _ y _ => ?_) fun e y h => by cases h
  · refine Program.Ends.handle (ends_discardStagedFile_steady (hk.env ▸ henv') (hwait.root hroot))
      (fun _ y h => h) fun e y h => by cases h
  rw [hvenv] at he
  cases he with
  | full h =>
    obtain ⟨hfault,he⟩ := h
    have hun : Unstaged w.env ∅ maxSize content w.root p storageLimit := .full hfault
    rcases he with rfl | rfl <;> exact .unstaged hun
  | badName hname he =>
    have hun : Writes w.env maxSize content w.root p (.error e) :=
      .badName hready hfits hname he
    rcases he with rfl | rfl <;> exact hun
  | isDirectory hname _ => exact .isDirectory hready hfits (by simp [hname])

end Session
end CodeExecutorApi
