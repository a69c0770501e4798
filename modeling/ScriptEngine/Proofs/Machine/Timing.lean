import ScriptEngine.Proofs.Machine.Collection
import ScriptEngine.Proofs.Machine.PairedRuns
/-!
When collections happen.

Options say how much a heap holds before it collects, and so before which instructions collections happen.
Nothing that an embedder sees depends on them: scripts that run one after the other on new machines with other
options come to the same results and errors, and leave the same global variables, the same output and the same
trace (`collections_unobservable`). What is the same is what values refer to, whatever the handles and the
places of strings are.
-/

namespace ScriptEngine

variable {W : Type}

namespace Machine

open Heap (Same)

variable {env : Embedding W} {p q : Pairing} {m m' n n' : Machine W}

/-! ## New machines -/

theorem paired_bare {o o' : Options} (hwidth : o'.placeholderWidth = o.placeholderWidth) (output : Output) (world : W) :
    Paired .empty (bare o output world) (bare o' output world) where
  heap := Heap.paired_empty o o'
  stack := .empty
  frames := .empty
  pending := .empty
  scopes := .empty
  receiver := .undefined
  lastHolder := .undefined
  shell := by
    unfold bare shell
    rw [hwidth]
  roots := rfl
  callbacks := rfl

instance calm_setBuiltin (b : Builtin) : Calm (setBuiltin b : Work W Unit) := by
  unfold setBuiltin
  infer_instance

theorem Paired.globalId (H : Paired p m m') : ResultLike p.objects m.globalId m'.globalId := by
  have hglobal : p.Values m.globalObject m'.globalObject := .getD (H.scopes.getElem? 0)
  have hid := hglobal.propertyHolder?
  unfold Machine.globalId
  generalize m.globalObject.propertyHolder? = x, m'.globalObject.propertyHolder? = x' at hid ⊢
  cases hid with
  | none => exact .error _
  | some hid => exact .ok hid

theorem alike_setBuiltin (b : Builtin) : Alike p Same (setBuiltin b : Work W Unit) (setBuiltin b) :=
  alike_bind (R := Pairing.objects) (alike_inspect fun _ _ _ H => H.globalId) fun _ _ _ hid =>
    alike_bind (alike_lend _ _) fun hle _ _ hkey => alike_setOwn (hle.objects hid) hkey (.native _)

instance calm_forM (bs : List Builtin) : Calm (bs.forM setBuiltin : Work W PUnit) := by
  induction bs with
  | nil => exact calm_pure ()
  | cons b bs ih =>
    exact calm_bind _ _

theorem alike_forM (bs : List Builtin) : Alike p Same (bs.forM setBuiltin : Work W PUnit) (bs.forM setBuiltin) := by
  induction bs generalizing p with
  | nil => exact alike_pure fun _ => rfl
  | cons b bs ih =>
    exact alike_bind (alike_setBuiltin b) fun _ _ _ _ => ih

theorem alike_install : Alike p Same (install : Work W Unit) install :=
  alike_bind alike_newObject fun _ _ _ hglobal =>
    alike_bind (alike_modify fun hle _ _ H => H.withScopes (H.scopes.push (hglobal.mono hle))) fun _ _ _ _ =>
      alike_forM _

theorem receiver_setBuiltin (b : Builtin) (m : Machine W) : (leftBy (setBuiltin b m)).receiver = m.receiver := by
  simp only [setBuiltin, bind_eq, inspect]
  cases m.globalId with
  | error e => rfl
  | ok id =>
    simp only [onHeap]
    cases m.heap.lendString .engine (Text.bytesOf b.name) with
    | error e heap => rfl
    | ok key heap =>
      simp only
      cases heap.set id key b.value <;> rfl

theorem install_of_new {o : Options} {output : Output} {world : W} (h : new o output world = .ok m) :
    install (bare o output world) = .ok () m := by
  unfold new at h
  split at h
  · rename_i heq
    cases h
    exact heq
  · cases h

theorem receiver_new {o : Options} {output : Output} {world : W} (h : new o output world = .ok m) :
    m.receiver = .undefined := by
  have hall : ∀ (bs : List Builtin) (l : Machine W), (leftBy (bs.forM setBuiltin l)).receiver = l.receiver := by
    intro bs
    induction bs with
    | nil => exact fun _ => rfl
    | cons b bs ih =>
      intro l
      have hfirst := receiver_setBuiltin b l
      rw [show (b :: bs).forM setBuiltin = setBuiltin b >>= fun _ => bs.forM setBuiltin from rfl, bind_eq]
      generalize setBuiltin b l = r at hfirst ⊢
      cases r with
      | ok _ k => exact (ih k).trans hfirst
      | error e k => exact hfirst
  have hinstall : (leftBy (install (bare o output world))).receiver = .undefined := hall Builtin.globals _
  rwa [install_of_new h] at hinstall

/-- New machines hold the same, whatever their options say about collections. -/
theorem exists_paired_new {o o' : Options} (hwidth : o'.placeholderWidth = o.placeholderWidth) {output : Output} {world : W}
    (h : new o output world = .ok m) (h' : new o' output world = .ok m') (hfits : m.heap.Fits) (hfits' : m'.heap.Fits) :
    ∃ p, Paired p m m' := by
  have hmeets := alike_install.meets (.refl _) (paired_bare hwidth output world)
  rw [install_of_new h, install_of_new h'] at hmeets
  obtain ⟨p, -, hpaired, -⟩ := hmeets hfits hfits'
  exact ⟨p, hpaired⟩

/-! ## Scripts one after the other -/

/-- What comes of scripts, given by their names and their texts, that run one after the other within a budget
each, up to the first that does not come to an end. -/
def execAll (env : Embedding W) (budget : Nat) (m : Machine W) : List (String × String) → List (Outcome W Value)
  | [] => []
  | (filename, source) :: rest =>
    match perform env (m.exec filename source) budget with
    | .done n r => .done n r :: execAll env budget n rest
    | o => [o]

/-- Whether nothing that the scripts do leaves more on the heap than handles can name. -/
def roomyAll (env : Embedding W) (budget : Nat) (m : Machine W) : List (String × String) → Bool
  | [] => true
  | (filename, source) :: rest =>
    (Activity.action m (m.exec filename source)).roomy env budget
      && match perform env (m.exec filename source) budget with
        | .done n _ => roomyAll env budget n rest
        | _ => true

end Machine

/-- What an embedder sees where a script ended is the same on two machines: the values on their heaps stand for
each other, and so do results and global variables; errors, output and traces are equal. -/
structure Machine.SameView (p : Pairing) (m m' : Machine W) (r r' : Except Error Value) : Prop where
  graph : m.heap.Paired p m'.heap
  result : ResultLike p.Values r r'
  globals : p.Values m.globalObject m'.globalObject
  output : m'.output = m.output
  trace : m'.trace = m.trace
  lastError : m'.lastError = m.lastError

/-- Outcomes that an embedder cannot tell apart. -/
inductive Outcome.Same : Outcome W Value → Outcome W Value → Prop
  | done {p : Pairing} {m m' : Machine W} {r r' : Except Error Value} (h : Machine.SameView p m m' r r') :
    Outcome.Same (.done m r) (.done m' r')
  | outOfBudget : Outcome.Same .outOfBudget .outOfBudget
  | needsFile (path : String) : Outcome.Same (.needsFile path) (.needsFile path)

namespace Machine

variable {env : Embedding W} {p q : Pairing} {m m' n n' : Machine W}

theorem Paired.sameView (H : Paired p m m') {r r' : Except Error Value} (hresult : ResultLike p.Values r r') :
    SameView p m m' r r' where
  graph := H.heap
  result := hresult
  globals := .getD (H.scopes.getElem? 0)
  output := H.output
  trace := H.shared Machine.trace fun _ => rfl
  lastError := H.shared Machine.lastError fun _ => rfl

/-- What is shown of results is the same text. -/
theorem SameView.display_eq {v v' : Value} (h : SameView p m m' (.ok v) (.ok v')) (env : Embedding W) :
    m'.display env v' = m.display env v := by
  cases h.result with
  | ok hv => exact h.graph.display_eq env.nativeName hv

/-- A global variable is there on both machines, with values that stand for each other, or on neither. -/
theorem SameView.global? {r r' : Except Error Value} (h : SameView p m m' r r') (name : String) :
    Option.Rel p.Values (m.global? name) (m'.global? name) := by
  have hid := h.globals.propertyHolder?
  unfold Machine.global? globalId
  generalize m.globalObject.propertyHolder? = x, m'.globalObject.propertyHolder? = x' at hid ⊢
  cases hid with
  | none => exact .none
  | @some id id' hid =>
    have hown := h.graph.getOwn hid (Text.bytesOf name)
    simp only
    generalize m.heap.getOwn id (Text.bytesOf name) = y, m'.heap.getOwn id' (Text.bytesOf name) = y' at hown ⊢
    cases hown with
    | error e => exact .none
    | ok hv => exact hv

theorem receiver_execute {start : Nat} {receiver : Value} {args : List Value} {budget : Nat} {r : Except Error Value}
    (h : execute env m start receiver args budget = .done n r) : n.receiver = m.receiver := by
  have hend {d : Depths} {l : Machine W} {result : Except Error Value} (h : endExecution d m.receiver l result = .done n r) :
      n.receiver = m.receiver := by
    obtain ⟨trace, interrupted, hend, -⟩ := leaveExecution_eq l d m.receiver result
    cases h
    rw [hend]
    rfl
  cases budget with
  | zero => cases h
  | succ budget =>
    rw [execute_succ] at h
    split at h
    · exact hend h
    · obtain ⟨l, result, -, h⟩ := Outcome.andThen_eq_done h
      exact hend h

theorem receiver_compileScript (m : Machine W) (filename source : String) :
    (leftBy (compileScript filename source m)).receiver = m.receiver := by
  simp only [compileScript, bind_eq, inspect]
  cases Code.compile filename source m.options.placeholderWidth with
  | error e => rfl
  | ok unit =>
    simp only [commit]
    cases m.program.commit unit <;> rfl

/-- A script leaves the receiver of its embedder. -/
theorem receiver_runScript {filename source : String} {next : Machine W → Except Error Value → Action W Value}
    (hnext : ∀ l r, ∃ l' r', next l r = .done l' r' ∧ l'.receiver = l.receiver) {budget : Nat} {r : Except Error Value}
    (h : perform env ((m.runScript filename source).bind next) budget = .done n r) : n.receiver = m.receiver := by
  have hdone {l : Machine W} {result : Except Error Value} {budget : Nat}
      (h : perform env (next l result) budget = .done n r) : n.receiver = l.receiver := by
    obtain ⟨l', r', hl, hreceiver⟩ := hnext l result
    rw [hl] at h
    cases budget with
    | zero => cases h
    | succ budget =>
      cases h
      exact hreceiver
  have hcompile := receiver_compileScript m filename source
  unfold runScript Action.ofWork at h
  generalize compileScript filename source m = compiled at h hcompile
  cases compiled with
  | error e l => exact (hdone h).trans hcompile
  | ok committed l =>
    cases budget with
    | zero => cases h
    | succ budget =>
      simp only [Action.bind] at h
      rw [perform_call] at h
      obtain ⟨k, result, hexecute, h⟩ := Outcome.andThen_eq_done h
      exact (hdone h).trans ((receiver_execute hexecute).trans hcompile)

theorem receiver_exec {filename source : String} {budget : Nat} {r : Except Error Value}
    (h : perform env (m.exec filename source) budget = .done n r) : n.receiver = m.receiver := by
  unfold exec entry at h
  split at h
  · refine receiver_runScript (m := { m with lastError := none, trace := [] }) (fun l r => ?_) h
    cases r with
    | ok v => exact ⟨l, .ok v, rfl, rfl⟩
    | error e => exact ⟨{ l with lastError := some e }, .error e, rfl, rfl⟩
  · exact receiver_runScript (fun l r => ⟨l, r, rfl, rfl⟩) (by rwa [Action.bind_done])

/-! ## The same whenever collections happen -/

theorem AtRest.paired (h : m.AtRest p m') (hreceiver : p.Values m.receiver m'.receiver) : Paired p m m' :=
  { h with receiver := hreceiver, shell := h.shell }

theorem Paired.execAll (hbare : env.Bare) (budget : Nat) (H : Paired p m m') (hreceiver : m.receiver = .undefined)
    (scripts : List (String × String)) (hroomy : roomyAll env budget m scripts) (hroomy' : roomyAll env budget m' scripts) :
    List.Forall₂ Outcome.Same (execAll env budget m scripts) (execAll env budget m' scripts) := by
  induction scripts generalizing p m m' with
  | nil => exact .nil
  | cons script rest ih =>
    obtain ⟨filename, source⟩ := script
    simp only [roomyAll, Bool.and_eq_true] at hroomy hroomy'
    have hreceiver' : m'.receiver = .undefined := by
      have hpair := H.receiver
      rw [hreceiver] at hpair
      generalize m'.receiver = v at hpair ⊢
      cases hpair
      rfl
    have hrun := (runsPaired hbare budget).perform (H.exec filename source) hroomy.1 hroomy'.1
    have hkeep {n : Machine W} {r : Except Error Value} (h : perform env (m.exec filename source) budget = .done n r) :
        n.receiver = m.receiver := receiver_exec h
    have hkeep' {n : Machine W} {r : Except Error Value} (h : perform env (m'.exec filename source) budget = .done n r) :
        n.receiver = m'.receiver := receiver_exec h
    have hrest := hroomy.2
    have hrest' := hroomy'.2
    simp only [Machine.execAll]
    generalize perform env (m.exec filename source) budget = o, perform env (m'.exec filename source) budget = o'
      at hrun hkeep hkeep' hrest hrest' ⊢
    cases hrun with
    | outOfBudget => exact .cons .outOfBudget .nil
    | needsFile path => exact .cons (.needsFile path) .nil
    | @done q n n' r r' h hsites hresult =>
      have hleft : n.receiver = .undefined := (hkeep rfl).trans hreceiver
      have hleft' : n'.receiver = .undefined := (hkeep' rfl).trans hreceiver'
      have hpaired : Paired q n n' := h.paired (by rw [hleft, hleft']; exact .undefined)
      exact .cons (.done (hpaired.sameView hresult)) (ih hpaired hleft hrest hrest')

/-- Options that only say when to collect make no difference to an embedder without functions of its own and without
native code: scripts that run one after the other on new machines have outcomes that it cannot tell apart, as long
as nothing on the way holds more than handles can name. -/
theorem collections_unobservable (hbare : env.Bare) {o o' : Options} (hwidth : o'.placeholderWidth = o.placeholderWidth)
    {output : Output} {world : W} (hnew : new o output world = .ok m) (hnew' : new o' output world = .ok m')
    (hfits : m.heap.Fits) (hfits' : m'.heap.Fits) (budget : Nat) (scripts : List (String × String))
    (hroomy : roomyAll env budget m scripts) (hroomy' : roomyAll env budget m' scripts) :
    List.Forall₂ Outcome.Same (execAll env budget m scripts) (execAll env budget m' scripts) := by
  obtain ⟨p, hpaired⟩ := exists_paired_new hwidth hnew hnew' hfits hfits'
  exact hpaired.execAll hbare budget (receiver_new hnew) scripts hroomy hroomy'

/-- Options with which each new object and each new property asks for a collection. -/
def eagerOptions : Options where
  objectCellsPerBlock := 1
  objectReserve := 5
  propertyCellsPerBlock := 1
  propertyReserve := 5
  stringHeapSize := 0
  stringSlack := 0

/-- A script that leaves an object, and one that asks for a collection of its own and then fails. -/
def collectingScripts : List (String × String) :=
  [("first", "let o={a:1}"), ("second", "gc();p")]

/-- The new machine with the options has room for the scripts. -/
def hasRoom (o : Options) : Bool :=
  match new o ⟨"", none⟩ () with
  | .ok m => decide m.heap.Fits && roomyAll noEmbedding 40 m collectingScripts
  | .error _ => false

theorem exists_new_of_hasRoom {o : Options} (h : hasRoom o = true) : ∃ m, new o ⟨"", none⟩ () = .ok m ∧ m.heap.Fits ∧
    roomyAll noEmbedding 40 m collectingScripts = true := by
  unfold hasRoom at h
  split at h
  · rename_i m hnew
    rw [Bool.and_eq_true, decide_eq_true_eq] at h
    exact ⟨m, hnew, h⟩
  · cases h

theorem collections_unobservable_eager : ∃ m m' : Machine Unit, new .default ⟨"", none⟩ () = .ok m ∧
    new eagerOptions ⟨"", none⟩ () = .ok m' ∧
    List.Forall₂ Outcome.Same (execAll noEmbedding 40 m collectingScripts) (execAll noEmbedding 40 m' collectingScripts) := by
  obtain ⟨m, hnew, hfits, hroomy⟩ := exists_new_of_hasRoom (o := .default) (by decide +kernel)
  obtain ⟨m', hnew', hfits', hroomy'⟩ := exists_new_of_hasRoom (o := eagerOptions) (by decide +kernel)
  have hwidth : eagerOptions.placeholderWidth = Options.default.placeholderWidth := rfl
  exact ⟨m, m', hnew, hnew', collections_unobservable ⟨rfl, rfl⟩ hwidth hnew hnew' hfits hfits' 40 _ hroomy hroomy'⟩

end Machine

end ScriptEngine
