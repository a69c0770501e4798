import ScriptEngine.Proofs.Machine.Functions
import ScriptEngine.Proofs.Machine.Skeleton
import ScriptEngine.Proofs.Machine.TwinRuns
/-!
Functions outside of the code that mind the stacks.

What an action does by itself, between its calls, is `Tidy` when it leaves the stacks as they are, but for
collections, takes no code back, and calls code only at the start of a unit; it is `Honest` when all
functions that it hands on are ones that it was given. The functions that every machine has are both, and so
is everything an embedder can call, if the embedder's own functions are (`Embedding.Steady`).
-/

namespace ScriptEngine

open Code (Program)

namespace Machine

variable {W α : Type} {m m' m'' : Machine W}

/-- The stacks have the same sizes, and the same contents but for collections. -/
structure Kept (m m' : Machine W) : Prop where
  spared : Spared m.depths m m'
  depths : m'.depths = m.depths

theorem Kept.refl (m : Machine W) : m.Kept m :=
  ⟨.refl (Depths.Le.refl _), rfl⟩

theorem Kept.trans (h : m.Kept m') (h' : m'.Kept m'') : m.Kept m'' :=
  ⟨h.spared.trans (h.depths ▸ h'.spared), h'.depths.trans h.depths⟩

theorem SameStacks.depths (h : m.SameStacks m') : m'.depths = m.depths := by
  simp only [Machine.depths, h.stack, h.frames, h.pending, h.scopes, h.loops]

theorem SameStacks.kept (h : m.SameStacks m') : m.Kept m' :=
  ⟨(h.untouched (Depths.Le.refl _)).spared, h.depths⟩

/-- The stacks are kept, and the code grows. -/
structure Onward (m m' : Machine W) : Prop extends m.Kept m' where
  grows : m.program.Grows m'.program

theorem Onward.refl (m : Machine W) : m.Onward m :=
  ⟨.refl m, .refl _⟩

theorem Onward.trans (h : m.Onward m') (h' : m'.Onward m'') : m.Onward m'' :=
  ⟨h.toKept.trans h'.toKept, h.grows.trans h'.grows⟩

theorem SameStacks.onward (h : m.SameStacks m') (hprogram : m'.program = m.program) : m.Onward m' :=
  ⟨h.kept, hprogram ▸ .refl _⟩

/-- Work that keeps the stacks and lets the code grow. -/
def Orderly (work : Work W α) : Prop :=
  ∀ m : Machine W, m.Onward (leftBy (work m))

theorem Still.orderly {work : Work W α} (h : Still work) (hquiet : Quiet work) : Orderly work :=
  fun m => (h m).onward (hquiet m).1

end Machine

/-! ## Actions -/

/-- A callee that is in the code, if it is code. -/
def Callee.Known (p : Program) : Callee → Prop
  | .code start => ∃ unit, p.Has start unit
  | .value _ => True

theorem Callee.Known.of_partOf {p q : Program} {callee : Callee} (h : callee.Known p) (hp : p.PartOf q) :
    callee.Known q := by
  cases callee with
  | code start =>
    obtain ⟨unit, hunit⟩ := h
    exact ⟨unit, hunit.of_partOf hp⟩
  | value v => trivial

/-- A callee that is within some offsets, if it is a value. -/
def Callee.Within (S : Nat → Prop) : Callee → Prop
  | .code _ => True
  | .value v => v.Within S

namespace Action

variable {W α β : Type} {S : Nat → Prop} {m : Machine W}

/-- What an action does by itself leaves the stacks as they are and takes no code back, and the code that
it calls is there. -/
def Tidy (m : Machine W) : Action W α → Prop
  | done m' _ => m.Onward m'
  | call m' callee _ _ next =>
    m.Onward m' ∧ callee.Known m'.program ∧ ∀ n result, m'.program.Grows n.program → (next n result).Tidy n
  | needsFile _ => True

/-- All functions that an action hands on are within some offsets, if those that it gets from its calls
are. -/
def Honest (S : Nat → Prop) (Q : α → Prop) : Action W α → Prop
  | done m result => m.Within S ∧ ∀ a, result = .ok a → Q a
  | call m callee receiver args next =>
    (m.Within S ∧ callee.Within S ∧ receiver.Within S ∧ Values.Within S args)
      ∧ ∀ n result, n.Within S → Result.Within S result → (next n result).Honest S Q
  | needsFile _ => True

theorem Tidy.of_onward {m' : Machine W} {a : Action W α} (hm : m.Onward m') (h : a.Tidy m') : a.Tidy m := by
  cases a with
  | done n result => exact hm.trans h
  | call n callee receiver args next => exact ⟨hm.trans h.1, h.2⟩
  | needsFile path => trivial

theorem Tidy.bind {a : Action W α} {next : Machine W → Except Error α → Action W β} (h : a.Tidy m)
    (hnext : ∀ n result, m.program.Grows n.program → (next n result).Tidy n) : (a.bind next).Tidy m := by
  induction a generalizing m with
  | done n result => exact .of_onward h (hnext n result h.grows)
  | call n callee receiver args rest ih =>
    exact ⟨h.1, h.2.1, fun l result hgrows => ih l result (h.2.2 l result hgrows) fun l' result' hgrows' =>
      hnext l' result' (h.1.grows.trans (hgrows.trans hgrows'))⟩
  | needsFile path => trivial

theorem Honest.bind {P : α → Prop} {Q : β → Prop} {a : Action W α}
    {next : Machine W → Except Error α → Action W β} (h : a.Honest S P)
    (hnext : ∀ n result, n.Within S → (∀ a, result = .ok a → P a) → (next n result).Honest S Q) :
    (a.bind next).Honest S Q := by
  induction a with
  | done n result => exact hnext n result h.1 h.2
  | call n callee receiver args rest ih => exact ⟨h.1, fun l result hl hresult => ih l result (h.2 l result hl hresult)⟩
  | needsFile path => trivial

theorem tidy_ofWork {work : Machine.Work W α} (h : Machine.Orderly work) (m : Machine W) : (ofWork work m).Tidy m := by
  have hm := h m
  unfold ofWork
  split
  · rename_i a n hwork
    rw [hwork] at hm
    exact hm
  · rename_i e n hwork
    rw [hwork] at hm
    exact hm

theorem honest_ofWork {Q : α → Prop} {work : Machine.Work W α} (hleft : (leftBy (work m)).Within S)
    (hQ : ∀ a n, work m = .ok a n → Q a) : (ofWork work m).Honest S Q := by
  unfold ofWork
  split
  · rename_i a n hwork
    rw [hwork] at hleft
    exact ⟨hleft, fun b hb => Except.ok.inj hb ▸ hQ a n hwork⟩
  · rename_i e n hwork
    rw [hwork] at hleft
    exact ⟨hleft, fun b hb => by cases hb⟩

end Action

/-- The functions of an embedder leave the stacks alone but for their calls, and hand on only functions
that they were given. -/
structure Embedding.Steady {W : Type} (env : Embedding W) : Prop where
  natives : ∀ f ∈ env.natives, ∀ m receiver args, (f.call m receiver args).Tidy m
  nativesHonest : ∀ f ∈ env.natives, ∀ (S : Nat → Prop) m receiver args, m.Within S → receiver.Within S →
    Values.Within S args → (f.call m receiver args).Honest S (Value.Within S)
  host : ∀ host, env.host = some host → ∀ m f args, (host.call m f args).Tidy m
  hostHonest : ∀ host, env.host = some host → ∀ (S : Nat → Prop) m f args, m.Within S →
    (host.call m f args).Honest S fun _ => True

namespace Machine

variable {W α : Type} {S : Nat → Prop} {env : Embedding W} {m m' : Machine W}

/-! ## Entries -/

theorem kept_collect (m : Machine W) (full : Bool) : m.Kept (m.collect full).1 := by
  obtain ⟨hspared, hskeleton⟩ := collect_spares m full (Depths.Le.refl m.depths)
  exact ⟨hspared, by rw [← depths_skeleton, hskeleton, depths_skeleton]⟩

theorem orderly_compileScript (filename source : String) : Orderly (compileScript filename source : Work W (Nat × Nat)) := by
  intro n
  simp only [compileScript, bind_eq, inspect]
  cases Code.compile filename source n.options.placeholderWidth with
  | error e => exact .refl n
  | ok unit =>
    simp only [commit]
    cases hcommit : n.program.commit unit with
    | error e => exact .refl n
    | ok committed => exact ⟨SameStacks.kept ⟨rfl, rfl, rfl, rfl, rfl⟩, Program.grows_commit hcommit⟩

/-- What was compiled starts a unit. -/
theorem known_of_compileScript {filename source : String} {committed : Nat × Nat}
    (h : compileScript filename source m = .ok committed m') : ∃ unit, m'.program.Has committed.1 unit := by
  simp only [compileScript, bind_eq, inspect] at h
  cases hcompile : Code.compile filename source m.options.placeholderWidth with
  | error e =>
    rw [hcompile] at h
    cases h
  | ok unit =>
    rw [hcompile] at h
    simp only [commit] at h
    cases hcommit : m.program.commit unit with
    | error e =>
      rw [hcommit] at h
      cases h
    | ok grown =>
      rw [hcommit] at h
      cases h
      obtain ⟨part, hpart, hgrown, -⟩ := Program.commit_eq hcommit
      obtain ⟨hstart, hdata, -⟩ := Program.ofUnit?_eq hpart
      refine ⟨unit, part, ?_, hstart, hdata⟩
      rw [hgrown]
      exact Array.mem_push_self

theorem tidy_entry {body : Machine W → Action W α} (h : ∀ m, (body m).Tidy m) (m : Machine W) :
    (m.entry body).Tidy m := by
  have hreset (n : Machine W) : n.Onward { n with lastError := none, trace := [] } :=
    SameStacks.onward ⟨rfl, rfl, rfl, rfl, rfl⟩ rfl
  unfold entry
  split
  · refine .of_onward (hreset m) ((h _).bind fun n result _ => ?_)
    cases result with
    | ok a => exact .refl n
    | error e => exact SameStacks.onward ⟨rfl, rfl, rfl, rfl, rfl⟩ rfl
  · exact h m

theorem honest_entry {Q : α → Prop} {body : Machine W → Action W α} (h : ∀ m, m.Within S → (body m).Honest S Q)
    (hm : m.Within S) : (m.entry body).Honest S Q := by
  have hreset : ({ m with lastError := none, trace := [] } : Machine W).Within S :=
    hm.change (g := fun n => { n with lastError := none, trace := [] }) (fun _ _ => rfl) ⟨rfl, rfl, rfl⟩
  unfold entry
  split
  · refine (h _ hreset).bind fun n result hn hresult => ?_
    cases result with
    | ok a => exact ⟨hn, hresult⟩
    | error e =>
      exact ⟨hn.change (g := fun n => { n with lastError := some e }) (fun _ _ => rfl) ⟨rfl, rfl, rfl⟩,
        fun _ heq => by cases heq⟩
  · exact h m hm

theorem tidy_call (m : Machine W) (callee receiver : Value) (args : List Value) :
    (m.call callee receiver args).Tidy m := by
  refine tidy_entry (fun n => ?_) m
  exact ⟨.refl n, trivial, fun l _ _ => Onward.refl l⟩

theorem honest_call (hm : m.Within S) {callee receiver : Value} {args : List Value} (hcallee : callee.Within S)
    (hreceiver : receiver.Within S) (hargs : Values.Within S args) :
    (m.call callee receiver args).Honest S (Value.Within S) :=
  honest_entry (fun _ hn => ⟨⟨hn, hcallee, hreceiver, hargs⟩, fun _ _ hl hresult => ⟨hl, hresult⟩⟩) hm

theorem tidy_runScript (filename source : String) (m : Machine W) : (m.runScript filename source).Tidy m := by
  have hcompile := orderly_compileScript filename source m
  unfold runScript Action.ofWork
  cases hcommitted : compileScript filename source m with
  | error e n =>
    rw [hcommitted] at hcompile
    exact hcompile
  | ok committed n =>
    rw [hcommitted] at hcompile
    exact ⟨hcompile, known_of_compileScript hcommitted, fun l result _ =>
      ⟨SameStacks.kept ⟨rfl, rfl, rfl, rfl, rfl⟩, Program.grows_recordRun _ _ _⟩⟩

theorem Within.receiver (h : m.Within S) : m.receiver.Within S :=
  fun r hr => congrArg Machine.receiver (h r hr)

theorem honest_runScript (filename source : String) (hm : m.Within S) :
    (m.runScript filename source).Honest S (Value.Within S) := by
  have hleft : (leftBy (compileScript filename source m)).Within S := by
    simp only [compileScript, bind_eq, inspect]
    cases Code.compile filename source m.options.placeholderWidth with
    | error e => exact hm
    | ok unit =>
      simp only [commit]
      cases m.program.commit unit with
      | error e => exact hm
      | ok committed => exact hm.elsewhere committed.1 m.output
  unfold runScript
  refine (Action.honest_ofWork (Q := fun _ => True) hleft fun _ _ _ => trivial).bind fun n result hn _ => ?_
  cases result with
  | error e => exact ⟨hn, fun _ heq => by cases heq⟩
  | ok committed =>
    exact ⟨⟨hn, trivial, hn.receiver, fun _ hv => absurd hv List.not_mem_nil⟩, fun l result hl hresult =>
      ⟨hl.elsewhere _ l.output, hresult⟩⟩

theorem tidy_exec (m : Machine W) (filename source : String) : (m.exec filename source).Tidy m :=
  tidy_entry (tidy_runScript filename source) m

theorem honest_exec (hm : m.Within S) (filename source : String) : (m.exec filename source).Honest S (Value.Within S) :=
  honest_entry (fun _ hn => honest_runScript filename source hn) hm

theorem tidy_loadFile (path : String) (m : Machine W) : (loadFile env m path).Tidy m := by
  refine tidy_entry (fun n => ?_) m
  split
  · exact .refl n
  · unfold runFile
    split
    · exact tidy_runScript _ _ n
    · exact .refl n
    · trivial

theorem honest_loadFile (path : String) (hm : m.Within S) : (loadFile env m path).Honest S (Value.Within S) := by
  refine honest_entry (fun n hn => ?_) hm
  split
  · exact ⟨hn, Result.within_ok Value.within_undefined⟩
  · unfold runFile
    split
    · exact honest_runScript _ _ hn
    · exact ⟨hn, Result.within_error _⟩
    · trivial

/-! ## Functions of every machine -/

theorem still_printValues (env : Embedding W) (args : List Value) : Still (printValues env args) := by
  refine still_bind (still_inspect _) fun line => still_bind (fun n => ?_) fun _ => still_pure _
  unfold writeLine
  split <;> exact ⟨rfl, rfl, rfl, rfl, rfl⟩

theorem still_resolveForeign (env : Embedding W) (text : String) : Still (resolveForeign env text) := by
  refine still_bind (still_ofExcept _) fun s => still_bind (still_ofExcept _) fun host => ?_
  split
  · exact still_throw _
  · exact still_alloc _

theorem still_newView (args : List Value) : Still (newView args : Work W Value) := by
  unfold newView
  split
  · exact still_bind (still_inspect _) fun _ => still_bind (still_ofExcept _) fun _ => still_alloc _
  · exact still_throw _

theorem still_pushItems (receiver : Value) (args : List Value) : Still (pushItems receiver args : Work W Value) := by
  unfold pushItems
  split
  · exact still_bind (still_onHeap _) fun _ => still_bind (still_inspect _) fun _ => still_pure _
  · exact still_throw _

theorem orderly_collectNow (args : List Value) : Orderly (collectNow args : Work W Value) := by
  intro n
  rw [collectNow_eq]
  refine ⟨kept_collect n _, ?_⟩
  simp only [leftBy, (collect_quiet n _).1]
  exact .refl _

theorem tidy_builtin (m : Machine W) (b : Builtin) (receiver : Value) (args : List Value) :
    (builtin env m b receiver args).Tidy m := by
  have hwork {function : Value → List Value → Work W Value} (hstill : Still (function receiver args))
      (hfunction : Uniform function) : (Action.ofWork (function receiver args) m).Tidy m :=
    Action.tidy_ofWork (hstill.orderly (hfunction.quiet receiver args)) m
  cases b with
  | print =>
    exact Action.tidy_ofWork (fun n => (still_printValues env args n).onward (program_printValues args n)) m
  | die => exact hwork (still_bind (still_inspect _) fun _ => still_throw _) uniform_die
  | gc => exact Action.tidy_ofWork (orderly_collectNow args) m
  | ffi => exact hwork (still_bind (still_inspect _) fun _ => still_resolveForeign env _) (uniform_ffi env)
  | freeCallback => exact hwork (still_modifyGet fun _ => ⟨rfl, rfl, rfl, rfl, rfl⟩) uniform_freeCallback
  | arrayBuffer => exact hwork (still_bind (still_ofExcept _) fun _ => still_alloc _) uniform_newBuffer
  | dataView => exact hwork (still_newView args) uniform_newView
  | load =>
    show (load env m args).Tidy m
    unfold load
    split
    · exact tidy_loadFile _ m
    · exact .refl m
  | apply =>
    show (applyReceiver m receiver args).Tidy m
    unfold applyReceiver
    split
    · exact ⟨.refl m, trivial, fun n _ _ => .refl n⟩
    · exact .refl m
  | push => exact hwork (still_pushItems receiver args) uniform_pushItems
  | charCodeAt | indexOf => exact Onward.refl m
  | slice => exact hwork (still_bind (still_inspect _) fun _ => still_onHeap _) uniform_slice
  | toText => exact hwork (still_bind (still_inspect _) fun _ => still_onHeap _) uniform_toText

/-- Work that takes no notice of offsets hands on functions that it was given. -/
theorem honest_uniform {function : Value → List Value → Work W Value} (hfunction : Uniform function)
    (hm : m.Within S) {receiver : Value} {args : List Value} (hreceiver : receiver.Within S)
    (hargs : Values.Within S args) : (Action.ofWork (function receiver args) m).Honest S (Value.Within S) := by
  have hpar (r : Renaming) (hr : r.Fixes S) :
      (Move.renaming m r).Parallel r.value (function receiver args) (function receiver args) := by
    have h := hfunction (Move.renaming m r) receiver args
    have hsame : (Move.renaming m r).value receiver = receiver := hreceiver r hr
    have hsame' : args.map (Move.renaming m r).value = args := hargs.map_eq hr
    rwa [hsame, hsame'] at h
  obtain ⟨hleft, hvalue⟩ := hm.work hpar (hfunction.quiet receiver args)
  exact Action.honest_ofWork hleft fun v n hwork r hr => hvalue v n hwork r hr

/-- Looking at what no renaming changes gives what no renaming changes. -/
theorem honest_look (hm : m.Within S) {result : Except Error Value}
    (h : ∀ r : Renaming, r.Fixes S → result = result.map r.value) : (Action.done m result).Honest S (Value.Within S) := by
  refine ⟨hm, fun v hv r hr => ?_⟩
  have hall := h r hr
  rw [hv] at hall
  exact (Except.ok.inj hall).symm

theorem Within.heap (h : m.Within S) {r : Renaming} (hr : r.Fixes S) : r.heap m.heap = m.heap :=
  congrArg Machine.heap (h r hr)

theorem Values.within_arg {args : List Value} (hargs : Values.Within S args) (i : Nat) : (arg args i).Within S := by
  unfold arg
  cases hi : args[i]? with
  | none => exact Value.within_undefined
  | some v => exact hargs v (List.mem_of_getElem? hi)

theorem Within.argumentsOf (h : m.Within S) {v : Value} (hv : v.Within S) {items : List Value}
    (hitems : m.argumentsOf v = .ok items) : Values.Within S items := by
  refine Values.within_of_map_eq fun r hr => ?_
  have hall := argumentsOf_machine (M := Move.renaming m r) m v
  rw [h r hr, show (Move.renaming m r).value v = v from hv r hr, hitems] at hall
  exact (Except.ok.inj hall).symm

theorem honest_printValues (hm : m.Within S) (args : List Value) :
    (Action.ofWork (printValues env args) m).Honest S (Value.Within S) := by
  refine Action.honest_ofWork ?_ fun v n hwork => ?_
  · simp only [printValues, bind_eq, inspect, writeLine]
    cases m.output.broken with
    | some reason => exact hm
    | none => exact hm.elsewhere m.program _
  · obtain ⟨_, _, -, hwork⟩ := bind_eq_ok.mp hwork
    obtain ⟨_, _, -, hwork⟩ := bind_eq_ok.mp hwork
    cases hwork
    exact Value.within_undefined

theorem honest_builtin (hm : m.Within S) (b : Builtin) {receiver : Value} {args : List Value}
    (hreceiver : receiver.Within S) (hargs : Values.Within S args) :
    (builtin env m b receiver args).Honest S (Value.Within S) := by
  cases b with
  | print => exact honest_printValues hm args
  | die => exact honest_uniform uniform_die hm hreceiver hargs
  | gc => exact honest_uniform uniform_collectNow hm hreceiver hargs
  | ffi => exact honest_uniform (uniform_ffi env) hm hreceiver hargs
  | freeCallback => exact honest_uniform uniform_freeCallback hm hreceiver hargs
  | arrayBuffer => exact honest_uniform uniform_newBuffer hm hreceiver hargs
  | dataView => exact honest_uniform uniform_newView hm hreceiver hargs
  | load =>
    show (load env m args).Honest S _
    unfold load
    split
    · exact honest_loadFile _ hm
    · exact ⟨hm, Result.within_error _⟩
  | apply =>
    show (applyReceiver m receiver args).Honest S _
    unfold applyReceiver
    split
    · rename_i items hitems
      exact ⟨⟨hm, hreceiver, Values.within_arg hargs 0, hm.argumentsOf (Values.within_arg hargs 1) hitems⟩,
        fun n result hn hresult => ⟨hn, hresult⟩⟩
    · exact ⟨hm, Result.within_error _⟩
  | push => exact honest_uniform uniform_pushItems hm hreceiver hargs
  | charCodeAt =>
    refine honest_look hm fun r hr => ?_
    have hall := charCodeAt_value (M := Move.renaming m r) m.heap receiver args
    rwa [show (Move.renaming m r).functions.heap m.heap = m.heap from hm.heap hr,
      show (Move.renaming m r).value receiver = receiver from hreceiver r hr,
      show args.map (Move.renaming m r).value = args from hargs.map_eq hr] at hall
  | indexOf =>
    refine honest_look hm fun r hr => ?_
    have hall := indexOf_value (M := Move.renaming m r) m.heap receiver args
    rwa [show (Move.renaming m r).functions.heap m.heap = m.heap from hm.heap hr,
      show (Move.renaming m r).value receiver = receiver from hreceiver r hr,
      show args.map (Move.renaming m r).value = args from hargs.map_eq hr] at hall
  | slice => exact honest_uniform uniform_slice hm hreceiver hargs
  | toText => exact honest_uniform uniform_toText hm hreceiver hargs

/-! ## Native code -/

theorem still_acceptCall (env : Embedding W) (id : SignatureId) (args : List Value) : Still (acceptCall env id args) :=
  still_bind (still_inspect _) fun _ => still_bind (still_inspect _) fun _ => still_bind (still_ofExcept _) fun _ =>
    still_bind (still_modifyGet fun _ => ⟨rfl, rfl, rfl, rfl, rfl⟩) fun _ => still_pure _

theorem tidy_callForeign (henv : env.Steady) (m : Machine W) (id : SignatureId) (args : List Value) :
    (callForeign env m id args).Tidy m := by
  have hcount (n : Machine W) (calls : Nat) : n.Onward { n with nativeCalls := calls } :=
    SameStacks.onward ⟨rfl, rfl, rfl, rfl, rfl⟩ rfl
  have haccepted := (still_acceptCall env id args).orderly (quiet_acceptCall env id args) m
  unfold callForeign Action.ofWork
  cases haccept : acceptCall env id args m with
  | error e n =>
    rw [haccept] at haccepted
    exact haccepted
  | ok call n =>
    rw [haccept] at haccepted
    refine .of_onward (haccepted.trans (hcount n _))
      ((henv.host call.host (host_of_acceptCall haccept) _ call.func call.args).bind fun l result _ => ?_)
    refine .of_onward (hcount l (l.nativeCalls - 1)) ?_
    cases result with
    | error e => exact Onward.refl _
    | ok a => exact Action.tidy_ofWork ((still_onHeap _).orderly (quiet_toValue _ a)) _

theorem Within.nativeCalls (h : m.Within S) (calls : Nat) : ({ m with nativeCalls := calls } : Machine W).Within S :=
  h.change (g := fun n => { n with nativeCalls := calls }) (fun _ _ => rfl) ⟨rfl, rfl, rfl⟩

/-- A value made of what native code gives is no function that the machine did not know. -/
theorem honest_toValue (hm : m.Within S) (type : Ffi.CType) (a : Ffi.Arg) :
    (Action.ofWork (onHeap fun heap => Ffi.Arg.toValue heap type a) m).Honest S (Value.Within S) := by
  obtain ⟨hleft, hvalue⟩ := hm.work (f := fun r => r.value)
    (fun r _ => parallel_toValue (W := W) (M := Move.renaming m r) type a) (quiet_toValue type a)
  exact Action.honest_ofWork hleft fun v n hwork r hr => hvalue v n hwork r hr

theorem honest_callForeign (henv : env.Steady) (hm : m.Within S) (id : SignatureId) {args : List Value}
    (hargs : Values.Within S args) : (callForeign env m id args).Honest S (Value.Within S) := by
  have hpar (r : Renaming) (hr : r.Fixes S) :
      (Move.renaming m r).Parallel (fun call => call) (acceptCall env id args) (acceptCall env id args) := by
    have h := parallel_acceptCall (M := Move.renaming m r) env id args
    rwa [show args.map (Move.renaming m r).value = args from hargs.map_eq hr] at h
  obtain ⟨hleft, -⟩ := hm.work (f := fun _ call => call) hpar (quiet_acceptCall env id args)
  unfold callForeign Action.ofWork
  cases haccept : acceptCall env id args m with
  | error e n =>
    rw [haccept] at hleft
    exact ⟨hleft, Result.within_error _⟩
  | ok call n =>
    rw [haccept] at hleft
    refine (henv.hostHonest call.host (host_of_acceptCall haccept) S _ call.func call.args
      (hleft.nativeCalls _)).bind fun l result hl _ => ?_
    cases result with
    | error e => exact ⟨hl.nativeCalls _, Result.within_error _⟩
    | ok a => exact honest_toValue (hl.nativeCalls _) _ a

/-! ## Whatever a call instruction calls -/

theorem tidy_callHost (henv : env.Steady) (m : Machine W) (callee receiver : Value) (args : List Value) :
    (callHost env m callee receiver args).Tidy m := by
  unfold callHost
  split
  · split
    · exact tidy_builtin m _ receiver args
    · split
      · rename_i f hnative
        exact henv.natives f (mem_of_native? hnative) m receiver args
      · exact .refl m
  · exact tidy_callForeign henv m _ args
  · exact .refl m

theorem honest_callHost (henv : env.Steady) (hm : m.Within S) {callee receiver : Value} {args : List Value}
    (hreceiver : receiver.Within S) (hargs : Values.Within S args) :
    (callHost env m callee receiver args).Honest S (Value.Within S) := by
  unfold callHost
  split
  · split
    · exact honest_builtin hm _ hreceiver hargs
    · split
      · rename_i f hnative
        exact henv.nativesHonest f (mem_of_native? hnative) S m receiver args hm hreceiver hargs
      · exact ⟨hm, Result.within_error _⟩
  · exact honest_callForeign henv hm _ hargs
  · exact ⟨hm, Result.within_error _⟩

end Machine

end ScriptEngine
