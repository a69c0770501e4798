import ScriptEngine.Machine.Run
import ScriptEngine.Proofs.Machine.TwinSteps
/-!
What is done outside of the code, on two machines that are alike.

Actions are alike if they make the same calls, and end alike whenever these do. `Embedding.Respects` asks
that of the functions of an embedder; entries are shown to be so (`Like.exec`). Past the last unit that
offsets have room for nothing is said: a machine is `Crowded` then, and stays so.
-/

namespace ScriptEngine

open Code (Atlas Sheet Op Item)

/-! ## Too many units -/

/-- A machine with more units than offsets have room for. -/
def Machine.Crowded {W : Type} (m : Machine W) : Prop :=
  Code.maxUnits < m.program.parts.size

namespace Action

variable {W α β : Type}

/-- An action that leads to crowded machines only, if the calls that it makes do. -/
def Crowded : Action W α → Prop
  | done m _ => m.Crowded
  | call m _ _ _ next => m.Crowded ∧ ∀ n result, n.Crowded → (next n result).Crowded
  | needsFile _ => True

theorem Crowded.bind {a : Action W α} (h : a.Crowded) {next : Machine W → Except Error α → Action W β}
    (hnext : ∀ m result, m.Crowded → (next m result).Crowded) : (a.bind next).Crowded := by
  induction a with
  | done m result => exact hnext m result h
  | call m callee receiver args rest ih => exact ⟨h.1, fun n result hn => ih n result (h.2 n result hn)⟩
  | needsFile path => trivial

/-- Work that loses no unit. -/
theorem crowded_ofWork {work : Machine.Work W α}
    (hwork : ∀ m, m.program.parts.size ≤ (leftBy (work m)).program.parts.size) {m : Machine W} (h : m.Crowded) :
    (ofWork work m).Crowded := by
  have hm := hwork m
  unfold ofWork
  cases hresult : work m with
  | ok a n =>
    rw [hresult] at hm
    exact Nat.lt_of_lt_of_le h hm
  | error e n =>
    rw [hresult] at hm
    exact Nat.lt_of_lt_of_le h hm

theorem crowded_ofQuiet {work : Machine.Work W α} (hquiet : Machine.Quiet work) {m : Machine W} (h : m.Crowded) :
    (ofWork work m).Crowded :=
  crowded_ofWork (fun m => Nat.le_of_eq (by rw [(hquiet m).1])) h

end Action

/-! ## Actions -/

/-- Callees that are the same unit, or values that are alike. -/
inductive Callee.Like (A : Atlas) : Callee → Callee → Prop
  | code {start start' : Nat} (h : A.KnownStart start start') : Callee.Like A (.code start) (.code start')
  | value {v v' : Value} (h : ValueLike A v v') : Callee.Like A (.value v) (.value v')

/-- Actions that make the same calls and end alike, or both end crowded. -/
inductive Action.Like {W α : Type} (w w' : Nat) (R : Atlas → α → α → Prop) :
    Atlas → Action W α → Action W α → Prop
  | done {A B : Atlas} {m m' : Machine W} {r r' : Except Error α} (hle : A <+: B)
    (hlike : Machine.Like B w w' m m') (hresult : ResultLike (R B) r r') :
    Action.Like w w' R A (.done m r) (.done m' r')
  | call {A B : Atlas} {m m' : Machine W} {callee callee' : Callee} {receiver receiver' : Value}
    {args args' : List Value} {next next' : Machine W → Except Error Value → Action W α} (hle : A <+: B)
    (hlike : Machine.Like B w w' m m') (hcallee : Callee.Like B callee callee')
    (hreceiver : ValueLike B receiver receiver') (hargs : List.Forall₂ (ValueLike B) args args')
    (hnext : ∀ {C : Atlas} {n n' : Machine W} {r r' : Except Error Value}, B <+: C →
      Machine.Like C w w' n n' → ResultLike (ValueLike C) r r' → Action.Like w w' R C (next n r) (next' n' r'))
    (hcrowded : ∀ n r, n.Crowded → (next n r).Crowded) (hcrowded' : ∀ n r, n.Crowded → (next' n r).Crowded) :
    Action.Like w w' R A (.call m callee receiver args next) (.call m' callee' receiver' args' next')
  | needsFile {A : Atlas} (path : String) : Action.Like w w' R A (.needsFile path) (.needsFile path)
  | crowded {A : Atlas} {a a' : Action W α} (h : a.Crowded) (h' : a'.Crowded) : Action.Like w w' R A a a'

namespace Action

variable {W α β : Type} {w w' : Nat} {A B : Atlas} {R : Atlas → α → α → Prop} {S : Atlas → β → β → Prop}

theorem Like.of_le {a a' : Action W α} (hle : A <+: B) (h : Like w w' R B a a') : Like w w' R A a a' := by
  cases h with
  | done hle' hlike hresult => exact .done (hle.trans hle') hlike hresult
  | call hle' hlike hcallee hreceiver hargs hnext hcrowded hcrowded' =>
    exact .call (hle.trans hle') hlike hcallee hreceiver hargs hnext hcrowded hcrowded'
  | needsFile path => exact .needsFile path
  | crowded h h' => exact .crowded h h'

theorem Like.bind {a a' : Action W α} {next next' : Machine W → Except Error α → Action W β}
    (h : Like w w' R A a a')
    (hnext : ∀ {B : Atlas} {m m' : Machine W} {r r' : Except Error α}, A <+: B → Machine.Like B w w' m m' →
      ResultLike (R B) r r' → Like w w' S B (next m r) (next' m' r'))
    (hcrowded : ∀ m r, m.Crowded → (next m r).Crowded) (hcrowded' : ∀ m r, m.Crowded → (next' m r).Crowded) :
    Like w w' S A (a.bind next) (a'.bind next') := by
  induction h with
  | done hle hlike hresult => exact .of_le hle (hnext hle hlike hresult)
  | call hle hlike hcallee hreceiver hargs _ hrest hrest' ih =>
    exact .call hle hlike hcallee hreceiver hargs
      (fun hle' hlike' hresult => ih hle' hlike' hresult fun hle'' => hnext (hle.trans (hle'.trans hle'')))
      (fun n r hn => (hrest n r hn).bind hcrowded) (fun n r hn => (hrest' n r hn).bind hcrowded')
  | needsFile path => exact .needsFile path
  | crowded h h' => exact .crowded (h.bind hcrowded) (h'.bind hcrowded')

theorem like_ofWork {work work' : Machine.Work W α} {m m' : Machine W}
    (h : Machine.WorkLike A w w' (R A) (work m) (work' m')) :
    Like w w' R A (ofWork work m) (ofWork work' m') := by
  unfold ofWork
  revert h
  generalize work m = r
  generalize work' m' = r'
  intro h
  cases h with
  | ok hlike h => exact .done (List.prefix_refl A) hlike (.ok h)
  | error e hlike => exact .done (List.prefix_refl A) hlike (.error e)

end Action

/-! ## Embeddings -/

/-- The functions of an embedder take no notice of offsets and lose no unit, and no file makes a unit
that is too large at one of the widths. -/
structure Embedding.Respects {W : Type} (env : Embedding W) (w w' : Nat) : Prop where
  natives : ∀ f ∈ env.natives, ∀ {A : Atlas} {m m' : Machine W} {receiver receiver' : Value}
    {args args' : List Value}, Machine.Like A w w' m m' → ValueLike A receiver receiver' →
    List.Forall₂ (ValueLike A) args args' →
    Action.Like w w' ValueLike A (f.call m receiver args) (f.call m' receiver' args')
  nativesCrowded : ∀ f ∈ env.natives, ∀ (m : Machine W) receiver args, m.Crowded → (f.call m receiver args).Crowded
  host : ∀ host, env.host = some host → ∀ {A : Atlas} {m m' : Machine W} f args, Machine.Like A w w' m m' →
    Action.Like w w' (fun _ => Eq) A (host.call m f args) (host.call m' f args)
  hostCrowded : ∀ host, env.host = some host → ∀ (m : Machine W) f args, m.Crowded → (host.call m f args).Crowded
  files : ∀ {world path source}, env.readFile world path = .text source →
    Code.compile path source w ≠ .error Code.unitTooLarge ∧ Code.compile path source w' ≠ .error Code.unitTooLarge

/-! ## Printing -/

theorem TextLike.intercalate {A : Atlas} {texts texts' : List String} (separator : String)
    (h : List.Forall₂ (TextLike A) texts texts') :
    TextLike A (String.intercalate separator texts) (String.intercalate separator texts') := by
  induction h with
  | nil => exact .same _
  | cons hfirst hrest ih =>
    cases hrest with
    | nil =>
      rw [String.intercalate_singleton, String.intercalate_singleton]
      exact hfirst
    | cons hsecond hrest =>
      rw [String.intercalate_cons_cons, String.intercalate_cons_cons]
      exact .append (.append hfirst (.same _)) ih

namespace Machine

variable {W : Type} {A : Atlas} {w w' : Nat} {m m' : Machine W} {env : Embedding W}

theorem Like.display (h : Like A w w' m m') {v v' : Value} (hv : ValueLike A v v') :
    TextLike A (m.display env v) (m'.display env v') := by
  cases hv with
  | function hknown => exact .append (.append (.same _) (.offset hknown)) (.same _)
  | same hne =>
    obtain ⟨M, -, rfl⟩ := h.exists_move
    have hsame : (M.machine m).display env v = m.display env v := by
      cases v with
      | function start => exact absurd rfl (hne start)
      | signature id =>
        simp only [Machine.display, Heap.display, Move.heap_machine, Renaming.foreignFunction_heap]
      | _ => rfl
    rw [hsame]
    exact .same _

theorem Like.withOutput (h : Like A w w' m m') {o o' : Output} (htext : TextLike A o.text o'.text)
    (hbroken : o'.broken = o.broken) : Like A w w' { m with output := o } { m' with output := o' } :=
  ⟨h.describes, h.width, h.width', htext, hbroken, fun hM =>
    congrArg (fun n : Machine W => { n with output := o' }) (h.moved hM)⟩

theorem Like.printValues (h : Like A w w' m m') {args args' : List Value}
    (hargs : List.Forall₂ (ValueLike A) args args') :
    WorkLike A w w' (ValueLike A) (printValues env args m) (printValues env args' m') := by
  have hline : TextLike A (String.intercalate " " (args.map (m.display env)))
      (String.intercalate " " (args'.map (m'.display env))) := by
    refine .intercalate _ ?_
    rw [List.forall₂_map_left_iff, List.forall₂_map_right_iff]
    exact hargs.imp fun _ _ hv => h.display hv
  simp only [Machine.printValues, bind_eq, inspect, writeLine, h.broken]
  cases m.output.broken with
  | some reason => exact .error _ h
  | none =>
    exact .ok (h.withOutput (.append (.append h.text hline) (.same _)) rfl) (.same fun start heq => by cases heq)

theorem program_printValues (args : List Value) (n : Machine W) :
    (leftBy (printValues env args n)).program = n.program := by
  simp only [printValues, bind_eq, inspect, writeLine]
  cases n.output.broken <;> rfl

/-! ## Functions of every machine -/

/-- A function that does over other code what it does over its own, given its arguments there. -/
def Uniform (function : Value → List Value → Work W Value) : Prop :=
  ∀ (M : Move) receiver args, M.Parallel M.value (function receiver args)
    (function (M.value receiver) (args.map M.value))

theorem Uniform.quiet {function : Value → List Value → Work W Value} (h : Uniform function) (receiver : Value)
    (args : List Value) : Quiet (function receiver args) := by
  refine quiet_of_parallel (f := fun n => (Move.stay n).value) fun n => ?_
  have hstay := h (Move.stay n) receiver args
  rwa [Move.value_stay, Move.map_value_stay] at hstay

theorem Like.uniform (h : Like A w w' m m') {function : Value → List Value → Work W Value}
    (huniform : Uniform function) {receiver receiver' : Value} {args args' : List Value}
    (hreceiver : ValueLike A receiver receiver') (hargs : List.Forall₂ (ValueLike A) args args') :
    Action.Like w w' ValueLike A (Action.ofWork (function receiver args) m)
      (Action.ofWork (function receiver' args') m') := by
  refine Action.like_ofWork ((h.work (f := Move.value) (fun {M} hM => ?_) (huniform.quiet receiver args)).imp
    fun _ _ hall => h.describes.valueLike hall)
  rw [hreceiver.eq hM, ValueLike.map_eq hargs hM]
  exact huniform (M.towards m') receiver args

/-- What only looks at the machine. -/
theorem Like.look (h : Like A w w' m m') {look look' : Except Error Value}
    (hlook : ∀ {M : Move}, M.Fits A → look' = look.map M.value) :
    Action.Like w w' ValueLike A (.done m look) (.done m' look') := by
  refine .done (List.prefix_refl A) h ?_
  obtain ⟨M, hM⟩ := h.describes.exists_fits
  cases look with
  | error e =>
    rw [hlook hM]
    exact .error e
  | ok v =>
    obtain rfl := hlook hM
    exact .ok (h.describes.valueLike fun hM => Except.ok.inj (hlook hM))

/-! ## Entries -/

theorem Like.depth (h : Like A w w' m m') : m'.depth = m.depth := by
  obtain ⟨M, -, rfl⟩ := h.exists_move
  rfl

theorem Like.entry (h : Like A w w' m m') {α : Type} {R : Atlas → α → α → Prop}
    {body body' : Machine W → Action W α}
    (hbody : ∀ {m m' : Machine W}, Like A w w' m m' → Action.Like w w' R A (body m) (body' m')) :
    Action.Like w w' R A (m.entry body) (m'.entry body') := by
  unfold Machine.entry
  by_cases houter : m.depth = 0
  · rw [if_pos houter, if_pos (h.depth.trans houter)]
    have hreset : Like A w w' { m with lastError := none, trace := [] }
        { m' with lastError := none, trace := [] } :=
      h.change (g := fun n => { n with lastError := none, trace := [] })
        (k := fun n => { n with lastError := none, trace := [] }) (fun _ _ => rfl) fun _ => ⟨rfl, rfl, rfl⟩
    refine (hbody hreset).bind (fun {B n n' r r'} _ hlike hresult => ?_) (fun n r hn => ?_) fun n r hn => ?_
    · cases hresult with
      | ok hvalue => exact .done (List.prefix_refl B) hlike (.ok hvalue)
      | error e =>
        refine .done (List.prefix_refl B) ?_ (.error e)
        exact hlike.change (g := fun n => { n with lastError := some e })
          (k := fun n => { n with lastError := some e }) (fun _ _ => rfl) fun _ => ⟨rfl, rfl, rfl⟩
    · cases r <;> exact hn
    · cases r <;> exact hn
  · rw [if_neg houter, if_neg fun hzero => houter (h.depth.symm.trans hzero)]
    exact hbody h

theorem crowded_entry {α : Type} {body : Machine W → Action W α} (hbody : ∀ m, m.Crowded → (body m).Crowded)
    (h : m.Crowded) : (m.entry body).Crowded := by
  unfold entry
  split
  · refine (hbody { m with lastError := none, trace := [] } h).bind fun n r hn => ?_
    cases r <;> exact hn
  · exact hbody m h

theorem Like.withProgram (h : Like A w w' m m') {B : Atlas} (hle : A <+: B) {p p' : Code.Program}
    (hdescribes : B.Describes p p') : Like B w w' { m with program := p } { m' with program := p' } :=
  ⟨hdescribes, h.width, h.width', h.text.mono hle, h.broken, fun hM =>
    congrArg (fun n : Machine W => { n with program := p' }) (h.moved (hM.anti hle))⟩

/-- Committed offsets of the same unit. -/
def CommitLike (A : Atlas) (c c' : Nat × Nat) : Prop :=
  A.KnownStart c.1 c'.1 ∧ c'.2 = c.2

theorem Like.compileScript (h : Like A w w' m m') (hw : w ≤ Code.Emitter.maxWidth) (hw' : w' ≤ Code.Emitter.maxWidth)
    {filename source : String} (hsmall : Code.compile filename source w ≠ .error Code.unitTooLarge)
    (hsmall' : Code.compile filename source w' ≠ .error Code.unitTooLarge) :
    Action.Like w w' CommitLike A (Action.ofWork (compileScript filename source) m)
      (Action.ofWork (compileScript filename source) m') := by
  simp only [Action.ofWork, Machine.compileScript, bind_eq, inspect, h.width, h.width']
  rcases Code.compile_two filename source hw hw' hsmall hsmall' with
    ⟨e, herror, herror'⟩ | ⟨unit, unit', items, lines, hunit, hunit', hcompiled, hcompiled', hclosed⟩
  · simp only [herror, herror']
    exact .done (List.prefix_refl A) h (.error e)
  · simp only [hunit, hunit', commit]
    rcases h.describes.commit hcompiled hcompiled' hclosed with
      ⟨e, herror, herror'⟩ | ⟨s, q, q', hq, hq', hsize, hsize', hstart, hstart', hdescribes⟩
    · simp only [herror, herror']
      exact .done (List.prefix_refl A) h (.error e)
    · simp only [hq, hq']
      rcases Nat.lt_or_ge A.length Code.maxUnits with hfew | hmany
      · refine .done (List.prefix_append A [s]) (h.withProgram (List.prefix_append A [s]) (hdescribes hfew))
          (.ok ⟨⟨A.length, s, ?_, hstart.symm, hstart'.symm⟩, rfl⟩)
        simp
      · refine .crowded ?_ ?_
        · show Code.maxUnits < q.parts.size
          omega
        · show Code.maxUnits < q'.parts.size
          omega

theorem crowded_compileScript (filename source : String) (h : m.Crowded) :
    (Action.ofWork (compileScript filename source) m).Crowded := by
  refine Action.crowded_ofWork (fun n => ?_) h
  simp only [compileScript, bind_eq, inspect]
  cases Code.compile filename source n.options.placeholderWidth with
  | error e => exact Nat.le_refl _
  | ok unit =>
    simp only [commit, Code.Program.commit]
    cases Code.Part.ofUnit? unit n.program.size with
    | none => exact Nat.le_refl _
    | some part =>
      show n.program.parts.size ≤ (n.program.parts.push part).size
      simp

theorem Like.receiver (h : Like A w w' m m') : ValueLike A m.receiver m'.receiver :=
  h.describes.valueLike fun hM => congrArg Machine.receiver (h.moved hM)

theorem Like.runScript (h : Like A w w' m m') (hw : w ≤ Code.Emitter.maxWidth) (hw' : w' ≤ Code.Emitter.maxWidth)
    {filename source : String} (hsmall : Code.compile filename source w ≠ .error Code.unitTooLarge)
    (hsmall' : Code.compile filename source w' ≠ .error Code.unitTooLarge) :
    Action.Like w w' ValueLike A (m.runScript filename source) (m'.runScript filename source) := by
  have hrecord (index : Nat) (n : Machine W) (r : Except Error Value) (hn : n.Crowded) :
      Crowded { n with program := n.program.recordRun index r.isOk } := by
    simpa [Crowded, Code.Program.recordRun] using hn
  refine (h.compileScript hw hw' hsmall hsmall').bind (fun {B n n' r r'} _ hlike hresult => ?_)
    (fun n r hn => ?_) fun n r hn => ?_
  · cases hresult with
    | error e => exact .done (List.prefix_refl B) hlike (.error e)
    | @ok committed committed' hcommit =>
      obtain ⟨start, index⟩ := committed
      obtain ⟨start', index'⟩ := committed'
      obtain ⟨hstart, rfl⟩ := hcommit
      refine .call (List.prefix_refl B) hlike (.code hstart) hlike.receiver .nil
        (fun {C l l' r r'} _ hlike' hresult' => .done (List.prefix_refl C) ?_ hresult') (hrecord _) (hrecord _)
      rw [hresult'.isOk]
      exact hlike'.withProgram (List.prefix_refl C) (hlike'.describes.recordRun _ _)
  · cases r with
    | error e => exact hn
    | ok committed => exact ⟨hn, hrecord _⟩
  · cases r with
    | error e => exact hn
    | ok committed => exact ⟨hn, hrecord _⟩

theorem crowded_runScript (filename source : String) (h : m.Crowded) : (m.runScript filename source).Crowded := by
  refine (crowded_compileScript filename source h).bind fun n r hn => ?_
  cases r with
  | error e => exact hn
  | ok committed => exact ⟨hn, fun l result hl => by simpa [Action.Crowded, Crowded, Code.Program.recordRun] using hl⟩

/-- Scripts run alike on machines that are alike. -/
theorem Like.exec (h : Like A w w' m m') (hw : w ≤ Code.Emitter.maxWidth) (hw' : w' ≤ Code.Emitter.maxWidth)
    {filename source : String} (hsmall : Code.compile filename source w ≠ .error Code.unitTooLarge)
    (hsmall' : Code.compile filename source w' ≠ .error Code.unitTooLarge) :
    Action.Like w w' ValueLike A (m.exec filename source) (m'.exec filename source) :=
  h.entry fun h => h.runScript hw hw' hsmall hsmall'

theorem Like.isLoaded (h : Like A w w' m m') (path : String) : m'.isLoaded path = m.isLoaded path := by
  unfold Machine.isLoaded
  rw [h.describes.findByFilename?]
  cases m.program.findByFilename? path with
  | none => rfl
  | some k => simp only [h.describes.lastRun]

theorem Like.world (h : Like A w w' m m') : m'.world = m.world := by
  obtain ⟨M, -, rfl⟩ := h.exists_move
  rfl

theorem Like.runFile (h : Like A w w' m m') (henv : env.Respects w w') (hw : w ≤ Code.Emitter.maxWidth)
    (hw' : w' ≤ Code.Emitter.maxWidth) (path : String) :
    Action.Like w w' ValueLike A (runFile env m path) (runFile env m' path) := by
  unfold Machine.runFile
  rw [h.world]
  cases hfile : env.readFile m.world path with
  | text source => exact h.runScript hw hw' (henv.files hfile).1 (henv.files hfile).2
  | failed reason => exact .done (List.prefix_refl A) h (.error _)
  | unknown => exact .needsFile path

theorem crowded_runFile (path : String) (h : m.Crowded) : (runFile env m path).Crowded := by
  unfold runFile
  split
  · exact crowded_runScript _ _ h
  · exact h
  · trivial

theorem Like.loadFile (h : Like A w w' m m') (henv : env.Respects w w') (hw : w ≤ Code.Emitter.maxWidth)
    (hw' : w' ≤ Code.Emitter.maxWidth) (path : String) :
    Action.Like w w' ValueLike A (loadFile env m path) (loadFile env m' path) := by
  refine h.entry fun {n n'} hlike => ?_
  simp only [hlike.isLoaded]
  split
  · exact .done (List.prefix_refl A) hlike (.ok (.same fun start heq => by cases heq))
  · exact hlike.runFile henv hw hw' path

theorem crowded_loadFile (path : String) (h : m.Crowded) : (loadFile env m path).Crowded := by
  refine crowded_entry (fun n hn => ?_) h
  split
  · exact hn
  · exact crowded_runFile path hn

end Machine

end ScriptEngine
