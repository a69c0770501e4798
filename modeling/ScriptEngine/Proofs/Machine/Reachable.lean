import Mathlib.Logic.Relation
import ScriptEngine.Proofs.Machine.Operations
/-!
The states that a machine can come to.

`Operation` lists what can be done to a machine; what is not the heap may become anything, since no
statement about heaps depends on it. `Leads` is a row of operations, and `Reachable` a row of them from a
new machine. The heap of a reachable machine is in order (`Reachable.sound`), and what an embedder
starts leads from reachable machines to reachable ones, whatever it calls (`Reachable.perform`).
-/

namespace ScriptEngine

namespace Machine

variable {W α β : Type}

/-- What can be done to a machine. -/
inductive Operation (env : Embedding W) : {α : Type} → Work W α → Prop where
  /-- Any change besides the heap. -/
  | elsewhere (rest : Machine W) :
      Operation env (modify fun m => { rest with heap := m.heap } : Work W Unit)
  | instruction (c : Cursor) : Operation env (advance env c)
  | collect (full : Bool) : Operation env (modify fun m => (m.collect full).1 : Work W Unit)
  | compileScript (filename source : String) : Operation env (compileScript filename source)
  | printValues (args : List Value) : Operation env (printValues env args)
  | die (args : List Value) : Operation env (die args)
  | collectNow (args : List Value) : Operation env (collectNow args)
  | ffi (args : List Value) : Operation env (ffi env args)
  | freeCallback (args : List Value) : Operation env (freeCallback args)
  | newBuffer (args : List Value) : Operation env (newBuffer args)
  | newView (args : List Value) : Operation env (newView args)
  | pushItems (receiver : Value) (args : List Value) : Operation env (pushItems receiver args)
  | slice (receiver : Value) (args : List Value) : Operation env (slice receiver args)
  | toText (receiver : Value) : Operation env (toText receiver)
  | acceptCall (id : SignatureId) (args : List Value) : Operation env (acceptCall env id args)
  | acceptCallback (id : CallbackId) (args : List Ffi.Arg) : Operation env (acceptCallback id args)
  | toValue (type : Ffi.CType) (arg : Ffi.Arg) :
      Operation env (onHeap fun h => Ffi.Arg.toValue h type arg)
  | newObject : Operation env (alloc Heap.newObject)
  | newArray (items : List Value) : Operation env (alloc fun h => h.newArray items)
  | newBytes (bytes : Bytes) : Operation env (alloc fun h => h.newBuffer bytes)
  | allocString (bytes : List UInt8) : Operation env (allocString bytes)
  | lendString (bytes : List UInt8) : Operation env (lendString bytes)
  | setGlobal (name : String) (v : Value) : Operation env (setGlobal name v)
  | set (obj : Value) (name : String) (v : Value) : Operation env (set obj name v)
  | delete (obj : Value) (name : String) : Operation env (delete obj name)
  | arraySet (arr : Value) (index : Nat) (v : Value) : Operation env (arraySet arr index v)
  | arrayPush (arr v : Value) : Operation env (arrayPush arr v)

/-- Whatever is done to a machine does to its heap what machines do. -/
theorem Operation.abides {R : Heap → Heap → Prop} (hR : Heap.Course R) {env : Embedding W} {work : Work W α}
    (h : Operation env work) : Abides R work := by
  cases h with
  | elsewhere rest => exact abides_of_heap hR fun _ => rfl
  | instruction c => exact (made_advance env c).abides hR
  | collect full => exact abides_change fun m => collect_abides hR m full
  | compileScript filename source => exact abides_compileScript hR filename source
  | printValues args => exact abides_printValues hR env args
  | die args => exact (made_die args).abides hR
  | collectNow args => exact abides_collectNow hR args
  | ffi args => exact (made_ffi env args).abides hR
  | freeCallback args => exact abides_freeCallback hR args
  | newBuffer args => exact (made_newBuffer args).abides hR
  | newView args => exact (made_newView args).abides hR
  | pushItems receiver args => exact (made_pushItems receiver args).abides hR
  | slice receiver args => exact (made_slice receiver args).abides hR
  | toText receiver => exact (made_toText receiver).abides hR
  | acceptCall id args => exact abides_acceptCall hR env id args
  | acceptCallback id args => exact (made_acceptCallback id args).abides hR
  | toValue type arg => exact (made_toValue type arg).abides hR
  | newObject => exact made_newObject.abides hR
  | newArray items => exact (made_alloc fun _ => .cell _).abides hR
  | newBytes bytes => exact (made_alloc fun _ => .cell _).abides hR
  | allocString bytes => exact (made_allocString bytes).abides hR
  | lendString bytes => exact (made_lend _ bytes).abides hR
  | setGlobal name v => exact (made_setGlobal name v).abides hR
  | set obj name v => exact (made_set obj name v).abides hR
  | delete obj name => exact (made_delete obj name).abides hR
  | arraySet arr index v => exact (made_arraySet arr index v).abides hR
  | arrayPush arr v => exact (made_arrayPush arr v).abides hR

/-- One operation, whatever comes of it. -/
def Does (env : Embedding W) (m m' : Machine W) : Prop :=
  ∃ (α : Type) (work : Work W α), Operation env work ∧ leftBy (work m) = m'

/-- A row of operations. -/
def Leads (env : Embedding W) : Machine W → Machine W → Prop :=
  Relation.ReflTransGen (Does env)

/-- A new machine leads to it, and handles have room for the numbers of its slots. -/
structure Reachable (env : Embedding W) (m : Machine W) : Prop where
  from_new : ∃ o output world start, Machine.new o output world = .ok start ∧ Leads env start m
  addressable : m.heap.Addressable

section Leads

variable {env : Embedding W} {m m' m'' : Machine W}

theorem Leads.refl (m : Machine W) : Leads env m m :=
  Relation.ReflTransGen.refl

theorem Leads.trans (h : Leads env m m') (h' : Leads env m' m'') : Leads env m m'' :=
  Relation.ReflTransGen.trans h h'

theorem leads_operation {work : Work W α} (h : Operation env work) (m : Machine W) :
    Leads env m (leftBy (work m)) :=
  Relation.ReflTransGen.single ⟨α, work, h, rfl⟩

theorem leads_of_heap (h : m'.heap = m.heap) : Leads env m m' := by
  have hsame : ({ m' with heap := m.heap } : Machine W) = m' := by rw [← h]
  have hop : Leads env m { m' with heap := m.heap } := leads_operation (.elsewhere m') m
  rwa [hsame] at hop

theorem Leads.abides {R : Heap → Heap → Prop} (hR : Heap.Course R) (h : Leads env m m') : R m.heap m'.heap := by
  induction h with
  | refl => exact hR.refl _
  | tail _ hdoes ih =>
    obtain ⟨α, work, hop, rfl⟩ := hdoes
    exact hR.trans ih (hop.abides hR _)

/-- What the start of a machine is made of. -/
theorem abides_new {R : Heap → Heap → Prop} (hR : Heap.Course R) {o : Options} {output : Output} {world : W}
    (h : new o output world = .ok m) : R (Heap.empty o) m.heap := by
  have hinstall := made_install.abides hR (bare o output world)
  unfold new at h
  split at h
  · rename_i heq
    rw [heq] at hinstall
    rw [← Except.ok.inj h]
    exact hinstall
  · simp at h

/-- The heap of a reachable machine is made of an empty one by what machines do to their heaps. -/
theorem Reachable.abides {R : Heap → Heap → Prop} (hR : Heap.Course R) (h : Reachable env m) :
    ∃ o, R (Heap.empty o) m.heap := by
  obtain ⟨o, output, world, start, hnew, hleads⟩ := h.from_new
  exact ⟨o, hR.trans (abides_new hR hnew) (hleads.abides hR)⟩

/-- The heap of a reachable machine is in order, and nothing is marked. -/
theorem Reachable.sound (h : Reachable env m) : m.heap.Sound ∧ m.heap.Unmarked := by
  obtain ⟨o, hk⟩ := h.abides Heap.course_keeps
  have hu := Heap.unmarked_empty o
  exact ⟨hk.sound h.addressable hu (Heap.sound_empty o), hk.unmarked hu⟩

theorem Reachable.leads (h : Reachable env m) (hleads : Leads env m m') (ha : m'.heap.Addressable) :
    Reachable env m' := by
  obtain ⟨o, output, world, start, hnew, hstart⟩ := h.from_new
  exact ⟨⟨o, output, world, start, hnew, hstart.trans hleads⟩, ha⟩

end Leads

end Machine

/-! ## Runs -/

namespace Action

variable {W α β : Type}

/-- An action does operations only, from a machine on, whatever comes of its calls. -/
def Follows (env : Embedding W) (m : Machine W) : Action W α → Prop
  | done m' _ => Machine.Leads env m m'
  | call m' _ _ _ next =>
    Machine.Leads env m m' ∧ ∀ m'' result, Machine.Leads env m' m'' → (next m'' result).Follows env m''
  | needsFile _ => True

theorem Follows.of_leads {env : Embedding W} {m m' : Machine W} {a : Action W α}
    (hleads : Machine.Leads env m m') (h : a.Follows env m') : a.Follows env m := by
  cases a with
  | done m'' result => exact hleads.trans h
  | call m'' callee receiver args next => exact ⟨hleads.trans h.1, h.2⟩
  | needsFile path => exact h

theorem Follows.bind {env : Embedding W} {m : Machine W} {a : Action W α}
    {next : Machine W → Except Error α → Action W β} (h : a.Follows env m)
    (hnext : ∀ m' result, (next m' result).Follows env m') : (a.bind next).Follows env m := by
  induction a generalizing m with
  | done m' result => exact .of_leads h (hnext m' result)
  | call m' callee receiver args rest ih =>
    exact ⟨h.1, fun m'' result hleads => ih m'' result (h.2 m'' result hleads)⟩
  | needsFile path => exact h

theorem follows_ofWork {env : Embedding W} {work : Machine.Work W α} (hop : Machine.Operation env work)
    (m : Machine W) : (ofWork work m).Follows env m := by
  have hleads := Machine.leads_operation hop m
  unfold ofWork
  split
  · rename_i a m' heq
    rw [heq] at hleads
    exact hleads
  · rename_i e m' heq
    rw [heq] at hleads
    exact hleads

end Action

/-- The functions of an embedder do operations only. -/
structure Embedding.Follows {W : Type} (env : Embedding W) : Prop where
  natives : ∀ f ∈ env.natives, ∀ m receiver args, (f.call m receiver args).Follows env m
  host : ∀ host, env.host = some host → ∀ m f args, (host.call m f args).Follows env m

namespace Machine

section Runs

variable {W α : Type} {env : Embedding W} {m m' : Machine W}

theorem follows_entry {body : Machine W → Action W α} (h : ∀ m, (body m).Follows env m)
    (m : Machine W) : (m.entry body).Follows env m := by
  unfold entry
  split
  · have hreset : Leads env m { m with lastError := none, trace := [] } := leads_of_heap rfl
    refine .of_leads hreset ?_
    refine (h _).bind fun m' result => ?_
    cases result with
    | ok a => exact Leads.refl m'
    | error e => exact leads_of_heap rfl
  · exact h m

theorem follows_runScript (filename source : String) (m : Machine W) :
    (m.runScript filename source).Follows env m := by
  refine (Action.follows_ofWork (.compileScript filename source) m).bind fun m' committed => ?_
  cases committed with
  | error e => exact Leads.refl m'
  | ok part => exact ⟨Leads.refl m', fun m'' result _ => leads_of_heap rfl⟩

theorem follows_loadFile (path : String) (m : Machine W) : (loadFile env m path).Follows env m := by
  refine follows_entry (fun m => ?_) m
  split
  · exact Leads.refl m
  · unfold runFile
    split
    · exact follows_runScript _ _ m
    · exact Leads.refl m
    · trivial

theorem follows_builtin (m : Machine W) (b : Builtin) (receiver : Value) (args : List Value) :
    (builtin env m b receiver args).Follows env m := by
  cases b with
  | print => exact Action.follows_ofWork (.printValues args) m
  | die => exact Action.follows_ofWork (.die args) m
  | gc => exact Action.follows_ofWork (.collectNow args) m
  | ffi => exact Action.follows_ofWork (.ffi args) m
  | freeCallback => exact Action.follows_ofWork (.freeCallback args) m
  | arrayBuffer => exact Action.follows_ofWork (.newBuffer args) m
  | dataView => exact Action.follows_ofWork (.newView args) m
  | load =>
    show (load env m args).Follows env m
    unfold load
    split
    · exact follows_loadFile _ m
    · exact Leads.refl m
  | apply =>
    show (applyReceiver m receiver args).Follows env m
    unfold applyReceiver
    split
    · exact ⟨Leads.refl m, fun m' result _ => Leads.refl m'⟩
    · exact Leads.refl m
  | push => exact Action.follows_ofWork (.pushItems receiver args) m
  | charCodeAt => exact Leads.refl m
  | indexOf => exact Leads.refl m
  | slice => exact Action.follows_ofWork (.slice receiver args) m
  | toText => exact Action.follows_ofWork (.toText receiver) m

/-- An accepted call goes to the native code of the embedding. -/
theorem host_of_acceptCall {id : SignatureId} {args : List Value} {call : AcceptedCall W}
    (h : acceptCall env id args m = .ok call m') : env.host = some call.host := by
  obtain ⟨f, m₁, -, h⟩ := bind_eq_ok.1 h
  obtain ⟨marshaled, m₂, -, h⟩ := bind_eq_ok.1 h
  obtain ⟨host, m₃, hhost, h⟩ := bind_eq_ok.1 h
  obtain ⟨registered, m₄, -, h⟩ := bind_eq_ok.1 h
  have hcall : call.host = host := by
    cases h
    rfl
  rw [hcall]
  unfold Embedding.requireHost at hhost
  cases henv : env.host with
  | none =>
    rw [henv] at hhost
    cases hhost
  | some host' =>
    rw [henv] at hhost
    cases hhost
    rfl

theorem follows_callForeign (henv : env.Follows) (m : Machine W) (id : SignatureId) (args : List Value) :
    (callForeign env m id args).Follows env m := by
  have hleads : Leads env m (leftBy (acceptCall env id args m)) := leads_operation (.acceptCall id args) m
  unfold callForeign Action.ofWork
  cases haccept : acceptCall env id args m with
  | error e m' =>
    rw [haccept] at hleads
    exact hleads
  | ok call m' =>
    rw [haccept] at hleads
    have hinhibit : Leads env m' { m' with nativeCalls := m'.nativeCalls + 1 } := leads_of_heap rfl
    refine .of_leads (hleads.trans hinhibit) ?_
    refine (henv.host call.host (host_of_acceptCall haccept) _ _ _).bind fun m'' result => ?_
    have hrelease : Leads env m'' { m'' with nativeCalls := m''.nativeCalls - 1 } := leads_of_heap rfl
    refine .of_leads hrelease ?_
    cases result with
    | error e => exact Leads.refl _
    | ok arg => exact Action.follows_ofWork (.toValue _ arg) _

theorem follows_callHost (henv : env.Follows) (m : Machine W) (callee receiver : Value)
    (args : List Value) : (callHost env m callee receiver args).Follows env m := by
  unfold callHost
  split
  · split
    · exact follows_builtin m _ receiver args
    · split
      · rename_i f hf
        unfold Embedding.native? at hf
        split at hf
        · exact henv.natives f (Array.mem_of_getElem? hf) m receiver args
        · simp at hf
      · exact Leads.refl m
  · exact follows_callForeign henv m _ args
  · exact Leads.refl m

theorem leads_collectIfNeeded (m : Machine W) : Leads env m m.collectIfNeeded := by
  unfold collectIfNeeded
  split
  · exact leads_operation (.collect false) m
  · exact Leads.refl m

theorem heap_leaveHost (m : Machine W) : m.leaveHost.heap = m.heap := by
  unfold leaveHost
  split <;> rfl

theorem heap_noteFailure (m : Machine W) (offset : Nat) (e : Error) :
    (m.noteFailure offset e).heap = m.heap := by
  unfold noteFailure
  split <;> rfl

theorem heap_leaveExecution (m : Machine W) (start : Depths) (receiver : Value)
    (result : Except Error Value) : (m.leaveExecution start receiver result).1.heap = m.heap := by
  unfold leaveExecution
  split
  · rfl
  · simp only
    split <;> rfl
  · rfl

/-- What each of the four kinds of runs leads to, within a budget. -/
structure RunsLead (env : Embedding W) (budget : Nat) : Prop where
  run : ∀ {m m' : Machine W} {c result}, Machine.run env m c budget = .done m' result → Leads env m m'
  execute : ∀ {m m' : Machine W} {start receiver args result},
    Machine.execute env m start receiver args budget = .done m' result → Leads env m m'
  callValue : ∀ {m m' : Machine W} {callee receiver args result},
    Machine.callValue env m callee receiver args budget = .done m' result → Leads env m m'
  perform : ∀ {m m' : Machine W} {a : Action W Value} {result}, a.Follows env m →
    Machine.perform env a budget = .done m' result → Leads env m m'

theorem leads_run_succ (henv : env.Follows) {budget : Nat} (ih : RunsLead env budget) {c : Cursor}
    {result : Except Error Value} (h : Machine.run env m c (budget + 1) = .done m' result) :
    Leads env m m' := by
  have hstep : Leads env m (leftBy (advance env c m.collectIfNeeded)) :=
    (leads_collectIfNeeded m).trans (leads_operation (.instruction c) _)
  rw [Machine.run] at h
  split at h
  · cases h
    exact Leads.refl m
  · cases hadvance : advance env c m.collectIfNeeded with
    | error e m₁ =>
      rw [hadvance] at h hstep
      cases h
      exact hstep.trans (leads_of_heap (heap_noteFailure _ _ _))
    | ok step m₁ =>
      rw [hadvance] at h hstep
      cases step with
      | finish v =>
        cases h
        exact hstep
      | goOn next => exact hstep.trans (ih.run h)
      | host callee receiver args slot next =>
        simp only at h
        cases hperform : perform env (callHost env m₁ callee receiver args) budget with
        | outOfBudget => simp [hperform] at h
        | needsFile path => simp [hperform] at h
        | done m₂ outcome =>
          have hcall := hstep.trans (ih.perform (follows_callHost henv m₁ callee receiver args) hperform)
          rw [hperform] at h
          cases outcome with
          | ok v =>
            simp only at h
            refine (hcall.trans (leads_of_heap ?_)).trans (ih.run h)
            exact heap_leaveHost m₂
          | error e =>
            cases h
            refine hcall.trans (leads_of_heap ?_)
            rw [heap_noteFailure, heap_leaveHost]

theorem leads_execute_succ {budget : Nat} (ih : RunsLead env budget) {start : Nat} {receiver : Value}
    {args : List Value} {result : Except Error Value}
    (h : Machine.execute env m start receiver args (budget + 1) = .done m' result) : Leads env m m' := by
  have henter : Leads env m (m.enterExecution receiver args) := leads_of_heap rfl
  rw [Machine.execute] at h
  simp only at h
  split at h
  · cases h
    exact henter.trans (leads_of_heap (heap_leaveExecution _ _ _ _))
  · rename_i c hc
    cases hrun : Machine.run env (m.enterExecution receiver args) c budget with
    | outOfBudget => simp [hrun] at h
    | needsFile path => simp [hrun] at h
    | done m₁ outcome =>
      rw [hrun] at h
      cases h
      exact (henter.trans (ih.run hrun)).trans (leads_of_heap (heap_leaveExecution _ _ _ _))

/-- A function outside of the code is called with its arguments on the stack. -/
theorem leads_hostCall (henv : env.Follows) {budget : Nat} (ih : RunsLead env budget)
    {callee receiver : Value} {args : List Value} {outcome : Except Error Value}
    (h : perform env (callHost env (m.enterHostCall callee receiver args) callee receiver args) budget
      = .done m' outcome) (size : Nat) (before : Value) : Leads env m (m'.leaveHostCall size before) := by
  have henter : Leads env m (m.enterHostCall callee receiver args) := leads_of_heap rfl
  have hcall := ih.perform (follows_callHost henv _ callee receiver args) h
  exact (henter.trans hcall).trans (leads_of_heap rfl)

theorem leads_callValue_succ (henv : env.Follows) {budget : Nat} (ih : RunsLead env budget)
    {callee receiver : Value} {args : List Value} {result : Except Error Value}
    (h : Machine.callValue env m callee receiver args (budget + 1) = .done m' result) :
    Leads env m m' := by
  unfold Machine.callValue at h
  split at h
  · exact ih.execute h
  · simp only at h
    split at h
    · rename_i hperform
      cases h
      exact leads_hostCall henv ih hperform _ _
    · simp at h
    · simp at h
  · simp only at h
    split at h
    · rename_i hperform
      cases h
      exact leads_hostCall henv ih hperform _ _
    · simp at h
    · simp at h
  · cases h
    exact Leads.refl m

theorem leads_perform_succ {budget : Nat} (ih : RunsLead env budget) {a : Action W Value}
    (ha : a.Follows env m) {result : Except Error Value}
    (h : Machine.perform env a (budget + 1) = .done m' result) : Leads env m m' := by
  unfold Machine.perform at h
  cases a with
  | done m₁ outcome =>
    cases h
    exact ha
  | needsFile path => simp at h
  | call m₁ callee receiver args next =>
    obtain ⟨hleads, hnext⟩ := ha
    cases callee with
    | code start =>
      simp only at h
      cases hexecute : Machine.execute env m₁ start receiver args budget with
      | outOfBudget => simp [hexecute] at h
      | needsFile path => simp [hexecute] at h
      | done m₂ outcome =>
        rw [hexecute] at h
        have hcall := ih.execute hexecute
        exact (hleads.trans hcall).trans (ih.perform (hnext m₂ outcome hcall) h)
    | value callee =>
      simp only at h
      cases hcallValue : Machine.callValue env m₁ callee receiver args budget with
      | outOfBudget => simp [hcallValue] at h
      | needsFile path => simp [hcallValue] at h
      | done m₂ outcome =>
        rw [hcallValue] at h
        have hcall := ih.callValue hcallValue
        exact (hleads.trans hcall).trans (ih.perform (hnext m₂ outcome hcall) h)

theorem runsLead (henv : env.Follows) (budget : Nat) : RunsLead env budget := by
  induction budget with
  | zero =>
    refine ⟨?_, ?_, ?_, ?_⟩
    · intro m m' c result h
      simp [Machine.run] at h
    · intro m m' start receiver args result h
      simp [Machine.execute] at h
    · intro m m' callee receiver args result h
      simp [Machine.callValue] at h
    · intro m m' a result _ h
      simp [Machine.perform] at h
  | succ budget ih =>
    exact ⟨leads_run_succ henv ih, leads_execute_succ ih, leads_callValue_succ henv ih,
      fun ha h => leads_perform_succ ih ha h⟩

/-- What an embedder starts leads from reachable machines to reachable machines. -/
theorem Reachable.perform (h : Reachable env m) (henv : env.Follows) {a : Action W Value}
    (ha : a.Follows env m) {budget : Nat} {result : Except Error Value}
    (hperform : Machine.perform env a budget = .done m' result) (haddr : m'.heap.Addressable) :
    Reachable env m' :=
  h.leads ((runsLead henv budget).perform ha hperform) haddr

theorem Reachable.exec (h : Reachable env m) (henv : env.Follows) {filename source : String} {budget : Nat}
    {result : Except Error Value}
    (hexec : Machine.perform env (m.exec filename source) budget = .done m' result)
    (haddr : m'.heap.Addressable) : Reachable env m' :=
  h.perform henv (follows_entry (follows_runScript filename source) m) hexec haddr

end Runs

end Machine

end ScriptEngine
