import CodeExecutorApi.Machine.Intake
import CodeExecutorApi.Sessions.Writing

/-! file_helpers.py: the two loops that consume a body, read by read. Elsewhere a body is the list of
what its reads give. -/
namespace CodeExecutorApi
open Python Posix Machine

/-- What the loops call: the `reader` and the `at_eof` of an object. -/
abbrev BodyReader := Reader (Exc AppError) Byte

/-- The shapes a body arrives in. A `BodyPartReader` and a `StreamReader` are objects of aiohttp. -/
inductive SupportedContentType
  | bytes (content : Bytes)
  | bodyPart (part : BodyReader) (state : part.State)
  | stream (reader : BodyReader) (state : reader.State)

/-- The closures over `read_file` and `content`. -/
def bytesReader (content : Bytes) : BodyReader where
  State := Bool
  read _ readFile := if readFile then (.ok [],readFile) else (.ok content,true)
  atEof readFile := readFile

/-- What the loops ask a reader for. -/
def chunkSize : ℕ := 8192

/-- A program with a buffer in memory. -/
abbrev Buffered (α : Type) := Program (World × Bytes) (Exc AppError) α

namespace Buffered

def write (chunk : Bytes) : Buffered Unit := fun v => (.ok (),v.1,v.2 ++ chunk)

def getvalue : Buffered Bytes := fun v => (.ok v.2,v)

/-- The program with a buffer that nobody else sees. -/
def run {α : Type} (x : Buffered α) (buffer : Bytes) : Api α := fun w =>
  ((x (w,buffer)).1,(x (w,buffer)).2.1)

theorem run_beside {α β : Type} (x : Api α) (f : α → Buffered β) (buffer : Bytes) :
    run (Program.beside x >>= f) buffer = x >>= fun a => (f a).run buffer := by
  funext w
  change ((((Program.beside x).bind f) (w,buffer)).1,(((Program.beside x).bind f) (w,buffer)).2.1) =
    Program.bind x _ w
  unfold Program.bind Program.beside
  rcases x w with ⟨e | a,v⟩ <;> rfl

theorem run_write {α : Type} (chunk : Bytes) (f : Unit → Buffered α) (buffer : Bytes) :
    run (write chunk >>= f) buffer = (f ()).run (buffer ++ chunk) := rfl

theorem run_ite {α : Type} {p : Prop} [Decidable p] (x y : Buffered α) (buffer : Bytes) :
    run (if p then x else y) buffer = if p then x.run buffer else y.run buffer := by
  split_ifs <;> rfl

end Buffered

namespace SupportedContentType

def prepareReader : SupportedContentType → (reader : BodyReader) × reader.State
  | .bytes content => ⟨bytesReader content,false⟩
  | .bodyPart part state => ⟨part,state⟩
  | .stream reader state => ⟨reader,state⟩

section Loops
variable (reader : BodyReader)

/-- The loop of `_write_content` from a given `actual_size` on. A chunk is not empty, so that it
brings the size closer to the limit. -/
def writeContent (fd maxSize actualSize : ℕ) (s : reader.State) : Api ℕ :=
  if reader.atEof s then pure actualSize
  else do
    Os.checkpoint
    match reader.read chunkSize s with
    | (.error e,_) => .raise e
    | (.ok [],_) => pure actualSize
    | (.ok (byte :: chunk),s') =>
      if maxSize < actualSize + (byte :: chunk).length then .raise (.app .requestEntityTooLarge)
      else
        Os.awaitThread (Os.write fd (byte :: chunk))
        writeContent fd maxSize (actualSize + (byte :: chunk).length) s'
termination_by maxSize - actualSize
decreasing_by
  rw [List.length_cons] at *
  omega

/-- The loop of `read_content` from a given `actual_size` on. The buffer is its `writer`. -/
def readLoop (maxSize actualSize : ℕ) (s : reader.State) : Buffered Bytes :=
  if reader.atEof s then Buffered.getvalue
  else do
    Program.beside Os.checkpoint
    match reader.read chunkSize s with
    | (.error e,_) => .raise e
    | (.ok [],_) => Buffered.getvalue
    | (.ok (byte :: chunk),s') =>
      if maxSize < actualSize + (byte :: chunk).length then .raise (.app .requestEntityTooLarge)
      else
        Buffered.write (byte :: chunk)
        readLoop maxSize (actualSize + (byte :: chunk).length) s'
termination_by maxSize - actualSize
decreasing_by
  rw [List.length_cons] at *
  omega

end Loops

def writeFileContent (fd : ℕ) (content : SupportedContentType) (maxSize : ℕ) : Api ℕ :=
  writeContent content.prepareReader.1 fd maxSize 0 content.prepareReader.2

/-- `read_content` with its buffer. -/
def readIntoBuffer (content : SupportedContentType) (maxSize : ℕ) : Buffered Bytes :=
  readLoop content.prepareReader.1 maxSize 0 content.prepareReader.2

def readContent (content : SupportedContentType) (maxSize : ℕ) : Api Bytes :=
  (content.readIntoBuffer maxSize).run []

/-- The chunks in which reads give the body. -/
def Splits (content : SupportedContentType) (chunks : List Bytes) : Prop :=
  content.prepareReader.1.Gives chunkSize content.prepareReader.2 chunks

/-- `at_eof` turns true with the last of them or later, if at all. -/
def Timely (content : SupportedContentType) (chunks : List Bytes) : Prop :=
  content.prepareReader.1.Timely chunkSize content.prepareReader.2 chunks

/-- Bytes in memory come at once. -/
theorem splits_bytes (body : Bytes) : (bytes body).Splits ([body].filter fun c => c ≠ []) := by
  cases body with
  | nil => exact .last rfl
  | cons byte body => exact .chunk rfl (List.cons_ne_nil _ _) (.last rfl)

theorem timely_bytes (body : Bytes) : (bytes body).Timely ([body].filter fun c => c ≠ []) := by
  cases body with
  | nil => exact trivial
  | cons byte body => exact ⟨rfl,trivial⟩

/-- What the reads before the first true `at_eof` give of the body. -/
def seen (content : SupportedContentType) (chunks : List Bytes) : Bytes :=
  (content.prepareReader.1.taken chunkSize content.prepareReader.2 chunks).flatten

section Turns
variable {reader : BodyReader} {s s' : reader.State} {fd maxSize size : ℕ} {c : Bytes}

theorem writeContent_eof (heof : reader.atEof s = true) :
    writeContent reader fd maxSize size s = pure size := by
  rw [writeContent,if_pos heof]

theorem writeContent_last (hmore : reader.atEof s = false)
    (hread : reader.read chunkSize s = (.ok [],s')) :
    writeContent reader fd maxSize size s = Os.checkpoint >>= fun _ => pure size := by
  rw [writeContent,if_neg (by rw [hmore]; exact nofun),hread]

theorem writeContent_error {e : Exc AppError} (hmore : reader.atEof s = false)
    (hread : reader.read chunkSize s = (.error e,s')) :
    writeContent reader fd maxSize size s = Os.checkpoint >>= fun _ => .raise e := by
  rw [writeContent,if_neg (by rw [hmore]; exact nofun),hread]

theorem writeContent_chunk (hmore : reader.atEof s = false)
    (hread : reader.read chunkSize s = (.ok c,s')) (hc : c ≠ []) :
    writeContent reader fd maxSize size s = Os.checkpoint >>= fun _ =>
      if maxSize < size + c.length then .raise (.app .requestEntityTooLarge)
      else Os.awaitThread (Os.write fd c) >>= fun _ =>
        writeContent reader fd maxSize (size + c.length) s' := by
  cases c with
  | nil => exact absurd rfl hc
  | cons byte chunk =>
    rw [writeContent,if_neg (by rw [hmore]; exact nofun),hread]

theorem readLoop_eof (heof : reader.atEof s = true) :
    readLoop reader maxSize size s = Buffered.getvalue := by
  rw [readLoop,if_pos heof]

theorem readLoop_last (hmore : reader.atEof s = false)
    (hread : reader.read chunkSize s = (.ok [],s')) :
    readLoop reader maxSize size s = Program.beside Os.checkpoint >>= fun _ => Buffered.getvalue := by
  rw [readLoop,if_neg (by rw [hmore]; exact nofun),hread]

theorem readLoop_error {e : Exc AppError} (hmore : reader.atEof s = false)
    (hread : reader.read chunkSize s = (.error e,s')) :
    readLoop reader maxSize size s = Program.beside Os.checkpoint >>= fun _ => .raise e := by
  rw [readLoop,if_neg (by rw [hmore]; exact nofun),hread]

theorem readLoop_chunk (hmore : reader.atEof s = false)
    (hread : reader.read chunkSize s = (.ok c,s')) (hc : c ≠ []) :
    readLoop reader maxSize size s = Program.beside Os.checkpoint >>= fun _ =>
      if maxSize < size + c.length then .raise (.app .requestEntityTooLarge)
      else Buffered.write c >>= fun _ =>
        readLoop reader maxSize (size + c.length) s' := by
  cases c with
  | nil => exact absurd rfl hc
  | cons byte chunk =>
    rw [readLoop,if_neg (by rw [hmore]; exact nofun),hread]

end Turns

section Lists
variable {reader : BodyReader} {s : reader.State} {fd maxSize size : ℕ}
  {reads : List (Except (Exc AppError) Bytes)}

/-- A loop does with a reader what it does with the list of its reads. -/
theorem writeContent_reads (h : reader.Reads chunkSize s reads) :
    writeContent reader fd maxSize size s = CodeExecutorApi.writeContent fd maxSize size reads := by
  induction h generalizing size with
  | eof heof => rw [writeContent_eof heof,CodeExecutorApi.writeContent]
  | last hmore hread => rw [writeContent_last hmore hread,CodeExecutorApi.writeContent]
  | error hmore hread => rw [writeContent_error hmore hread,CodeExecutorApi.writeContent]
  | @chunk s s' c cs hmore hread hc _ ih =>
    rw [writeContent_chunk hmore hread hc]
    cases c with
    | nil => exact absurd rfl hc
    | cons byte chunk =>
      rw [CodeExecutorApi.writeContent]
      · simp only [ih]
      · exact hc

/-- The buffer holds what the list model of the loop passes on. -/
theorem readLoop_reads (h : reader.Reads chunkSize s reads) (written : Bytes) :
    (readLoop reader maxSize written.length s).run written =
      CodeExecutorApi.readLoop maxSize written reads := by
  induction h generalizing written with
  | eof heof =>
    rw [readLoop_eof heof,CodeExecutorApi.readLoop]
    rfl
  | last hmore hread =>
    rw [readLoop_last hmore hread,Buffered.run_beside,CodeExecutorApi.readLoop]
    rfl
  | error hmore hread =>
    rw [readLoop_error hmore hread,Buffered.run_beside,CodeExecutorApi.readLoop]
    rfl
  | @chunk s s' c cs hmore hread hc _ ih =>
    rw [readLoop_chunk hmore hread hc,Buffered.run_beside]
    cases c with
    | nil => exact absurd rfl hc
    | cons byte chunk =>
      rw [CodeExecutorApi.readLoop]
      · simp only [Buffered.run_ite,Buffered.run_write,← ih,List.length_append]
        rfl
      · exact hc

end Lists

/-- The list of its reads says all about a body. -/
def Lists (content : SupportedContentType) (listed : Content) : Prop :=
  content.prepareReader.1.Reads chunkSize content.prepareReader.2
    (CodeExecutorApi.prepareReader listed)

theorem bytes_lists (content : Bytes) : (bytes content).Lists (.bytes content) := by
  cases content with
  | nil => exact .last rfl rfl
  | cons byte content => exact .chunk rfl rfl (List.cons_ne_nil _ _) (.eof rfl)

theorem writeFileContent_lists {content : SupportedContentType} {listed : Content}
    (h : content.Lists listed) (fd maxSize : ℕ) :
    content.writeFileContent fd maxSize = CodeExecutorApi.writeFileContent fd listed maxSize :=
  writeContent_reads h

theorem readContent_lists {content : SupportedContentType} {listed : Content}
    (h : content.Lists listed) (maxSize : ℕ) :
    content.readContent maxSize = CodeExecutorApi.readContent listed maxSize :=
  readLoop_reads h []

theorem bodyOf_chunks {chunks : List Bytes} {tail : List (Except (Exc AppError) Bytes)}
    (hchunks : ∀ c ∈ chunks, c ≠ []) (htail : tail = [] ∨ tail = [.ok []]) :
    bodyOf (chunks.map .ok ++ tail) = chunks.flatten := by
  induction chunks with
  | nil => rcases htail with rfl | rfl <;> rfl
  | cons c chunks ih =>
    have hrest := ih fun c hc => hchunks c (List.mem_cons_of_mem _ hc)
    cases c with
    | nil => exact absurd rfl (hchunks [] List.mem_cons_self)
    | cons byte chunk =>
      rw [List.map_cons,List.cons_append,bodyOf,hrest]
      rfl

theorem Splits.reads {content : SupportedContentType} {chunks : List Bytes}
    (h : content.Splits chunks) : ∃ (taken : List Bytes) (tail : List (Except (Exc AppError) Bytes)),
      (∀ c ∈ taken, c ≠ []) ∧ (tail = [] ∨ tail = [.ok []]) ∧ content.seen chunks = taken.flatten ∧
      content.prepareReader.1.Reads chunkSize content.prepareReader.2 (taken.map .ok ++ tail) := by
  obtain ⟨tail,htail,hreads⟩ := Reader.Gives.reads h
  exact ⟨_,tail,fun c hc => h.nonempty c (Reader.taken_prefix.subset hc),htail,rfl,hreads⟩

/-- In the other modules its body is what is seen of it. -/
theorem Splits.lists {content : SupportedContentType} {chunks : List Bytes}
    (h : content.Splits chunks) : ∃ listed : Content, content.Lists listed ∧
      listed.body = content.seen chunks := by
  obtain ⟨taken,tail,hchunks,htail,hseen,hreads⟩ := h.reads
  exact ⟨.reader (taken.map Except.ok ++ tail),hreads,hseen ▸ bodyOf_chunks hchunks htail⟩

end SupportedContentType

/-- A task is cancelled somewhere, or a write fails. -/
def Disturbed (env : Environment) : Prop :=
  (∃ n, env.interrupt n = true) ∨ ∃ n, env.fault .write n ≠ none

/-- A loop with `chunks` to come, which has put out `out`, does what `intake` does, unless it is
stopped on the way. -/
structure TakesIn {α : Type} (env : Environment) (maxSize : ℕ) (out : Bytes) (chunks : List Bytes)
    (value : Bytes → α) (r : Except (Exc AppError) α) (out' : Bytes) : Prop where
  part : out' <+: (intake maxSize out chunks).1
  ok : ∀ x, r = .ok x → (intake maxSize out chunks).2 = true ∧
    out' = (intake maxSize out chunks).1 ∧ x = value out'
  tooLarge : r = .error (.app .requestEntityTooLarge) → (intake maxSize out chunks).2 = false
  settled : ¬Disturbed env → out' = (intake maxSize out chunks).1 ∧
    r = if (intake maxSize out chunks).2 then .ok (value out')
      else .error (.app .requestEntityTooLarge)

namespace TakesIn
variable {α : Type} {env : Environment} {maxSize : ℕ} {out out' c : Bytes} {chunks : List Bytes}
  {value : Bytes → α} {r : Except (Exc AppError) α}

theorem done : TakesIn env maxSize out [] value (.ok (value out)) out := by
  refine ⟨List.prefix_rfl,?_,nofun,fun _ => ⟨rfl,rfl⟩⟩
  rintro _ ⟨⟩
  exact ⟨rfl,rfl,rfl⟩

theorem refused (h : maxSize < out.length + c.length) :
    TakesIn env maxSize out (c :: chunks) value (.error (.app .requestEntityTooLarge)) out := by
  have hintake : intake maxSize out (c :: chunks) = (out,false) := by rw [intake,if_pos h]
  refine ⟨hintake ▸ List.prefix_rfl,(by rintro n ⟨⟩),fun _ => congrArg Prod.snd hintake,fun _ => ?_⟩
  rw [hintake]
  exact ⟨rfl,rfl⟩

theorem stopped {e : Exc AppError} (hd : Disturbed env) (he : e ≠ .app .requestEntityTooLarge)
    (hpart : out' <+: (intake maxSize out chunks).1) :
    TakesIn env maxSize out chunks value (.error e) out' :=
  ⟨hpart,nofun,fun h => absurd (Except.error.inj h) he,fun h => absurd hd h⟩

theorem next (hfits : ¬maxSize < out.length + c.length)
    (h : TakesIn env maxSize (out ++ c) chunks value r out') :
    TakesIn env maxSize out (c :: chunks) value r out' := by
  have hintake : intake maxSize out (c :: chunks) = intake maxSize (out ++ c) chunks := by
    rw [intake,if_neg hfits]
  obtain ⟨hpart,hok,hlarge,hsettled⟩ := h
  rw [← hintake] at hpart hok hlarge hsettled
  exact ⟨hpart,hok,hlarge,hsettled⟩

end TakesIn

section Loops
variable {w : World} {reader : BodyReader} {s : reader.State} {maxSize fd : ℕ} {loc : Loc} {n : Name}
  {chunks : List Bytes} {tail : List (Except (Exc AppError) Bytes)} {out : Bytes}

theorem ends_checkpoint_cause : (Os.checkpoint : Api Unit).Ends w fun r v => w.Quiet v ∧
    ∀ e, r = .error e → Disturbed w.env ∧ e ≠ .app .requestEntityTooLarge := by
  unfold Program.Ends Os.checkpoint
  cases h : w.env.interrupt w.calls with
  | true =>
    refine ⟨World.quiet_tick w,?_⟩
    rintro _ ⟨⟩
    exact ⟨.inl ⟨_,h⟩,nofun⟩
  | false => exact ⟨World.quiet_tick w,nofun⟩

/-- Cancelled, the task does not learn whether the chunk was written. -/
theorem ends_awaitWrite {a : Attr} {content chunk : Bytes} (hfd : w.Has fd (loc ++ [n]))
    (hfile : w.root.get (loc ++ [n]) = some (.file a content)) :
    (Os.awaitThread (Os.write fd chunk) : Api Unit).Ends w fun r v => ∃ b written,
      w.Relinks loc n (some (.file b written)) v ∧ (r = .ok () → written = content ++ chunk) ∧
      ∀ e, r = .error e → (Disturbed w.env ∧ e ≠ .app .requestEntityTooLarge) ∧
        (written = content ∨ written = content ++ chunk) := by
  have hquiet {v : World} (hv : w.Quiet v) : w.Relinks loc n (some (.file a content)) v :=
    (World.relinks_refl hfile).quiet hv
  refine Program.Ends.bind ends_checkpoint_cause (fun _ v hv => ?_) fun e v hv =>
    ⟨a,content,hquiet hv.1,nofun,fun _ he => ⟨hv.2 _ he,.inl rfl⟩⟩
  refine Program.Ends.bind (R := fun r u => match r with
    | .ok _ => ∃ b, w.Relinks loc n (some (.file b (content ++ chunk))) u
    | .error e => w.Quiet u ∧ Disturbed w.env ∧ e ≠ .app .requestEntityTooLarge) ?_ ?_ ?_
  · refine Os.ends_write ((hv.1.keeps _).has hfd) (hv.1.root ▸ hfile) (fun e u he hu => ?_)
      fun b u _ hu => ⟨b,hv.1.relinks hu⟩
    refine ⟨hv.1.trans hu,.inr ⟨v.calls,?_⟩,nofun⟩
    rw [← hv.1.env,he]
    exact nofun
  · rintro _ u ⟨b,hu⟩
    refine Program.Ends.bind ends_checkpoint_cause (fun _ x hx => ?_) fun e x hx => ?_
    · exact ⟨b,_,hu.quiet hx.1,fun _ => rfl,nofun⟩
    · exact ⟨b,_,hu.quiet hx.1,nofun,fun _ he => ⟨hu.keeps.env ▸ hx.2 _ he,.inr rfl⟩⟩
  · rintro e u ⟨hu,he⟩
    refine ⟨a,content,hquiet hu,nofun,?_⟩
    rintro _ ⟨⟩
    exact ⟨he,.inl rfl⟩

namespace SupportedContentType

/-- `_write_content` takes in what its reader gives. -/
theorem ends_writeContent_takesIn {a : Attr} {before : Bytes} (hfd : w.Has fd (loc ++ [n]))
    (hfile : w.root.get (loc ++ [n]) = some (.file a (before ++ out)))
    (hchunks : ∀ c ∈ chunks, c ≠ []) (htail : tail = [] ∨ tail = [.ok []])
    (hreads : reader.Reads chunkSize s (chunks.map .ok ++ tail)) :
    (writeContent reader fd maxSize out.length s).Ends w fun r v => ∃ b out',
      v.root.get (loc ++ [n]) = some (.file b (before ++ out')) ∧
      TakesIn w.env maxSize out chunks List.length r out' := by
  induction chunks generalizing w s out a with
  | nil =>
    rcases htail with rfl | rfl
    · cases hreads with
      | eof heof =>
        rw [writeContent_eof heof]
        exact ⟨a,out,hfile,.done⟩
    · cases hreads with
      | last hmore hread =>
        rw [writeContent_last hmore hread]
        refine Program.Ends.bind ends_checkpoint_cause (fun _ v hv => ?_) fun e v hv => ?_
        · exact ⟨a,out,hv.1.root ▸ hfile,.done⟩
        · obtain ⟨hd,he⟩ := hv.2 e rfl
          exact ⟨a,out,hv.1.root ▸ hfile,.stopped hd he List.prefix_rfl⟩
      | chunk _ _ hc => exact absurd rfl hc
  | cons c chunks ih =>
    have hc := hchunks c List.mem_cons_self
    obtain ⟨hmore,s',hread,hrest⟩ := hreads.cons hc
    rw [writeContent_chunk hmore hread hc]
    refine Program.Ends.bind ends_checkpoint_cause (fun _ v hv => ?_) fun e v hv => ?_
    · split_ifs with hsize
      · exact ⟨a,out,hv.1.root ▸ hfile,.refused hsize⟩
      refine Program.Ends.bind (ends_awaitWrite ((hv.1.keeps _).has hfd) (hv.1.root ▸ hfile)) ?_ ?_
      · rintro _ u ⟨b,written,hu,hok,-⟩
        rw [hok rfl,List.append_assoc] at hu
        have hlater : (writeContent reader fd maxSize (out ++ c).length s').Ends u _ :=
          ih (hu.keeps.has ((hv.1.keeps _).has hfd)) (hu.tree.get_entry [])
            (fun c hc => hchunks c (List.mem_cons_of_mem _ hc)) hrest
        rw [List.length_append,hu.keeps.env,hv.1.env] at hlater
        refine hlater.mono ?_
        rintro r x ⟨b',out',hget,htakes⟩
        exact ⟨b',out',hget,htakes.next hsize⟩
      · rintro e u ⟨b,written,hu,-,herror⟩
        obtain ⟨⟨hd,he⟩,hwritten⟩ := herror e rfl
        rw [hv.1.env] at hd
        have hfirst : out <+: (intake maxSize out (c :: chunks)).1 := prefix_intake
        have hsecond : out ++ c <+: (intake maxSize out (c :: chunks)).1 := by
          rw [intake,if_neg hsize]
          exact prefix_intake
        rcases hwritten with rfl | rfl
        · exact ⟨b,out,hu.tree.get_entry [],.stopped hd he hfirst⟩
        · refine ⟨b,out ++ c,?_,.stopped hd he hsecond⟩
          rw [← List.append_assoc]
          exact hu.tree.get_entry []
    · obtain ⟨hd,he⟩ := hv.2 e rfl
      exact ⟨a,out,hv.1.root ▸ hfile,.stopped hd he prefix_intake⟩

/-- `read_content` does, too, but for its buffer. -/
theorem ends_readLoop_takesIn (hchunks : ∀ c ∈ chunks, c ≠ [])
    (htail : tail = [] ∨ tail = [.ok []])
    (hreads : reader.Reads chunkSize s (chunks.map .ok ++ tail)) :
    (readLoop reader maxSize out.length s).Ends (w,out) fun r v =>
      TakesIn w.env maxSize out chunks (fun out => out) r v.2 := by
  have hcheck (u : World) (t : Bytes) :
      (Program.beside Os.checkpoint : Buffered Unit).Ends (u,t) fun r v => u.Quiet v.1 ∧ t = v.2 ∧
        ∀ e, r = .error e → Disturbed u.env ∧ e ≠ .app .requestEntityTooLarge :=
    Program.ends_beside.mpr (ends_checkpoint_cause.mono fun _ _ h => ⟨h.1,rfl,h.2⟩)
  induction chunks generalizing w s out with
  | nil =>
    rcases htail with rfl | rfl
    · cases hreads with
      | eof heof =>
        rw [readLoop_eof heof]
        exact .done
    · cases hreads with
      | last hmore hread =>
        rw [readLoop_last hmore hread]
        refine Program.Ends.bind (hcheck w out) ?_ ?_
        · rintro _ ⟨v,_⟩ ⟨hv,rfl,-⟩
          exact .done
        · rintro e ⟨v,_⟩ ⟨hv,rfl,herror⟩
          obtain ⟨hd,he⟩ := herror e rfl
          exact .stopped hd he List.prefix_rfl
      | chunk _ _ hc => exact absurd rfl hc
  | cons c chunks ih =>
    have hc := hchunks c List.mem_cons_self
    obtain ⟨hmore,s',hread,hrest⟩ := hreads.cons hc
    rw [readLoop_chunk hmore hread hc]
    refine Program.Ends.bind (hcheck w out) ?_ ?_
    · rintro _ ⟨v,_⟩ ⟨hv,rfl,-⟩
      split_ifs with hsize
      · exact .refused hsize
      have hlater : (readLoop reader maxSize (out ++ c).length s').Ends (v,out ++ c) _ :=
        ih (fun c hc => hchunks c (List.mem_cons_of_mem _ hc)) hrest
      rw [List.length_append,hv.env] at hlater
      exact hlater.mono fun r x htakes => htakes.next hsize
    · rintro e ⟨v,_⟩ ⟨hv,rfl,herror⟩
      obtain ⟨hd,he⟩ := herror e rfl
      exact .stopped hd he prefix_intake

end SupportedContentType
end Loops

/-- What a loop with a limit makes of `body`: all of it if it fits, and an exception otherwise. If a
task is cancelled or a write fails, at least no more is put out. -/
structure Capped {α : Type} (env : Environment) (maxSize : ℕ) (body : Bytes) (value : Bytes → α)
    (r : Except (Exc AppError) α) (out : Bytes) : Prop where
  limit : out.length ≤ maxSize
  part : out <+: body
  whole : ∀ x, r = .ok x → x = value body ∧ out = body
  tooLarge : r = .error (.app .requestEntityTooLarge) → maxSize < body.length
  settled : ¬Disturbed env →
    r = if body.length ≤ maxSize then .ok (value body) else .error (.app .requestEntityTooLarge)

theorem TakesIn.capped {α : Type} {env : Environment} {maxSize : ℕ} {chunks : List Bytes}
    {value : Bytes → α} {r : Except (Exc AppError) α} {out : Bytes}
    (h : TakesIn env maxSize [] chunks value r out) :
    Capped env maxSize chunks.flatten value r out := by
  have hnil : ([] : Bytes).length ≤ maxSize := Nat.zero_le maxSize
  have hfits : (intake maxSize [] chunks).2 = true ↔ chunks.flatten.length ≤ maxSize :=
    intake_iff hnil
  have hall (hok : (intake maxSize [] chunks).2 = true) :
      (intake maxSize [] chunks).1 = chunks.flatten := intake_all hok
  refine ⟨h.part.length_le.trans (intake_length hnil),h.part.trans intake_prefix,
    fun x hx => ?_,fun hr => ?_,fun hcalm => ?_⟩
  · obtain ⟨hok,hout,rfl⟩ := h.ok x hx
    rw [hall hok] at hout
    exact ⟨by rw [hout],hout⟩
  · have hno := h.tooLarge hr
    by_contra hle
    rw [hfits.mpr (not_lt.mp hle)] at hno
    cases hno
  · obtain ⟨hout,hr⟩ := h.settled hcalm
    rw [hr]
    by_cases hok : (intake maxSize [] chunks).2 = true
    · rw [if_pos hok,if_pos (hfits.mp hok),hout,hall hok]
    · rw [if_neg hok,if_neg (mt hfits.mpr hok)]

namespace SupportedContentType

section Caps
variable {content : SupportedContentType} {chunks : List Bytes} {w : World} {fd : ℕ} {loc : Loc}
  {n : Name} {a : Attr} {before : Bytes}

theorem ends_readIntoBuffer (h : content.Splits chunks) (maxSize : ℕ) :
    (content.readIntoBuffer maxSize).Ends (w,[]) fun r v =>
      Capped w.env maxSize (content.seen chunks) (fun body => body) r v.2 := by
  obtain ⟨taken,tail,hchunks,htail,hseen,hreads⟩ := h.reads
  rw [hseen]
  exact (ends_readLoop_takesIn hchunks htail hreads).mono fun r v htakes => htakes.capped

theorem ends_writeFileContent (h : content.Splits chunks) (maxSize : ℕ)
    (hfd : w.Has fd (loc ++ [n])) (hfile : w.root.get (loc ++ [n]) = some (.file a before)) :
    (content.writeFileContent fd maxSize).Ends w fun r v => ∃ b out,
      v.root.get (loc ++ [n]) = some (.file b (before ++ out)) ∧
      Capped w.env maxSize (content.seen chunks) List.length r out := by
  obtain ⟨taken,tail,hchunks,htail,hseen,hreads⟩ := h.reads
  rw [hseen]
  rw [← List.append_nil before] at hfile
  refine (ends_writeContent_takesIn hfd hfile hchunks htail hreads).mono ?_
  rintro r v ⟨b,out,hget,htakes⟩
  exact ⟨b,out,hget,htakes.capped⟩

/-- `read_content` and `write_file_content` cap what they see of a body in the same way, however it is
cut into chunks, and they see all of it exactly if `at_eof` does not come before its last chunk. -/
theorem size_capped (h : content.Splits chunks) (maxSize : ℕ)
    (hfd : w.Has fd (loc ++ [n])) (hfile : w.root.get (loc ++ [n]) = some (.file a before)) :
    (content.readIntoBuffer maxSize).Ends (w,[])
      (fun r v => Capped w.env maxSize (content.seen chunks) (fun body => body) r v.2) ∧
    (content.writeFileContent fd maxSize).Ends w (fun r v => ∃ b out,
      v.root.get (loc ++ [n]) = some (.file b (before ++ out)) ∧
      Capped w.env maxSize (content.seen chunks) List.length r out) ∧
    (content.seen chunks = chunks.flatten ↔ content.Timely chunks) :=
  ⟨ends_readIntoBuffer h maxSize,ends_writeFileContent h maxSize hfd hfile,h.flatten_taken⟩

end Caps

/-- A process that has opened the empty file `f`, on a host where nothing goes wrong. -/
def fileOpened : World where
  env := ⟨40,fun _ _ => none,id,fun n => n,id,fun _ => [1],fun _ => false,fun _ => false,
    fun _ => false⟩
  root := .dir ⟨0,Session.dirMode,0,0,0⟩ [(⟨[0x66],isName_f⟩,.file ⟨1,tempMode,0,0,0⟩ [])]
  fds := [(3,[⟨[0x66],isName_f⟩])]
  nextFd := 4
  calls := 0

theorem fileOpened_undisturbed : ¬Disturbed fileOpened.env := by
  rintro (⟨n,hn⟩ | ⟨n,hn⟩)
  · cases hn
  · exact hn rfl

/-- A part whose `at_eof` turns true with the last chunk. -/
def prompt : BodyReader := .ofChunks _ List.isEmpty

/-- Three bytes fit into a file of three, at once or in two chunks, and not into a buffer of two. -/
theorem size_capped_chunks :
    ((bytes [1,2,3]).writeFileContent 3 3 fileOpened).1 = .ok 3 ∧
    ((bodyPart prompt [[1],[2,3]]).writeFileContent 3 3 fileOpened).1 = .ok 3 ∧
    ((bodyPart prompt [[1],[2,3]]).readIntoBuffer 2 (fileOpened,[])).1 =
      .error (.app .requestEntityTooLarge) := by
  have hopen : fileOpened.Has 3 ([] ++ [⟨[0x66],isName_f⟩]) := ⟨rfl,by decide⟩
  have hsplits : (bodyPart prompt [[1],[2,3]]).Splits [[1],[2,3]] :=
    Reader.gives_ofChunks _ (by decide : ∀ c ∈ ([[1],[2,3]] : List Bytes), c ≠ [])
  have hbody : (bodyPart prompt [[1],[2,3]]).seen [[1],[2,3]] = [1,2,3] :=
    (size_capped hsplits 3 hopen rfl).2.2.mpr ⟨rfl,rfl,trivial⟩
  obtain ⟨-,⟨_,_,_,hbytes⟩,hall⟩ := size_capped (splits_bytes [1,2,3]) 3 hopen rfl
  obtain ⟨-,⟨_,_,_,hwrite⟩,-⟩ := size_capped hsplits 3 hopen rfl
  obtain ⟨hread,-,-⟩ := size_capped hsplits 2 hopen rfl
  rw [hall.mpr (timely_bytes [1,2,3])] at hbytes
  rw [hbody] at hwrite hread
  exact ⟨hbytes.settled fileOpened_undisturbed,hwrite.settled fileOpened_undisturbed,
    hread.settled fileOpened_undisturbed⟩

/-- A part whose `at_eof` turns true when there is still one chunk to come. -/
def eager : BodyReader := .ofChunks _ fun chunks => chunks.length ≤ 1

/-- If `at_eof` turns true before the last chunk, that is lost without an exception. -/
theorem early_eof_cuts_body : ¬∀ (content : SupportedContentType) (chunks : List Bytes)
    (maxSize : ℕ) (w : World), content.Splits chunks → ¬Disturbed w.env →
      (content.readIntoBuffer maxSize (w,[])).1 =
        if chunks.flatten.length ≤ maxSize then .ok chunks.flatten
        else .error (.app .requestEntityTooLarge) := by
  intro hclaim
  have hsplits : (bodyPart eager [[1],[2]]).Splits [[1],[2]] :=
    Reader.gives_ofChunks _ (by decide : ∀ c ∈ ([[1],[2]] : List Bytes), c ≠ [])
  have hall := hclaim _ _ 2 fileOpened hsplits fileOpened_undisturbed
  have hcut := (ends_readIntoBuffer hsplits 2).settled fileOpened_undisturbed
  have hseen : (bodyPart eager [[1],[2]]).seen [[1],[2]] = [1] := rfl
  rw [hseen,hall] at hcut
  cases hcut

end SupportedContentType
end CodeExecutorApi
