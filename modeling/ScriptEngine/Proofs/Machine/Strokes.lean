import Mathlib.Logic.Relation
import ScriptEngine.Machine.Access
import ScriptEngine.Machine.Run
import ScriptEngine.Proofs.Heap.Views
/-!
What work on a machine is made of.

A `Stroke` is a single change of the heap, or a change of the stacks and of what goes with them; the rest of a
machine, its `background`, stays as it is. Work is `Made` of strokes when it leads to what strokes lead to,
whether it fails or not. Single instructions are (`made_advance`), and so are the functions that every
machine has, but for the few that reach the background or collect. What holds of all rows of strokes is thus
known of every instruction.
-/

namespace ScriptEngine

/-- A single change of a heap. -/
inductive Heap.Change (h : Heap) : Heap → Prop where
  /-- A new object. A view is made inside of a live buffer. -/
  | cell (kind : ObjectKind) (hadmits : h.Admits kind.extent := by trivial) : Change h (h.newCell kind).1
  | signature (f : Ffi.ForeignFunction) : Change h (h.newSignature f).1
  | string (bytes : List UInt8) : Change h (leftBy (h.newString bytes))
  | concat (s t : StringRef) : Change h (leftBy (h.concatStrings s t))
  | lend (lender : Lender) (bytes : List UInt8) : Change h (leftBy (h.lendString lender bytes))
  | set (id : ObjectId) (key v : Value) : Change h (leftBy (h.set id key v))
  | delete (id : ObjectId) (key : Value) : Change h (leftBy (h.delete id key))
  | items (id : ObjectId) (f : Array Value → Array Value) : Change h (leftBy (h.modifyItems id f))
  | byte (id : ObjectId) (index shown : Nat) (b : UInt8) : Change h (leftBy (h.setByte id index shown b))

/-- A row of changes of a heap. -/
def Heap.Changes : Heap → Heap → Prop :=
  Relation.ReflTransGen Heap.Change

namespace Machine

variable {W α β : Type}

/-- What instructions leave as it is. -/
structure Background where
  options : Options
  program : Code.Program
  roots : Roots
  callbacks : Ffi.Callbacks
  nativeCalls : Nat
  depth : Nat
  failedAt : Nat
  trace : List TraceEntry
  interrupted : Bool
  output : Output
  lastError : Option Error

/-- What instructions leave as it is, of a machine. -/
def background (m : Machine W) : Background :=
  ⟨m.options, m.program, m.roots, m.callbacks, m.nativeCalls, m.depth, m.failedAt, m.trace, m.interrupted,
    m.output, m.lastError⟩

/-- A change that instructions are made of. -/
inductive Stroke (m : Machine W) : Machine W → Prop where
  | heap {h : Heap} (hchange : m.heap.Change h) : Stroke m { m with heap := h }
  /-- A change of the stacks, the receiver, the latest holder or the world. -/
  | besides {n : Machine W} (hheap : n.heap = m.heap) (hbackground : n.background = m.background) : Stroke m n

/-- A row of strokes. -/
def Strokes : Machine W → Machine W → Prop :=
  Relation.ReflTransGen Stroke

/-- Work that is made of strokes. -/
def Made (work : Work W α) : Prop :=
  ∀ m : Machine W, m.Strokes (leftBy (work m))

theorem Strokes.background {m m' : Machine W} (h : m.Strokes m') : m'.background = m.background := by
  induction h with
  | refl => rfl
  | tail _ hstroke ih =>
    cases hstroke with
    | heap hchange => exact ih
    | besides _ hbackground => exact hbackground.trans ih

/-! ## Making work -/

theorem bind_eq (work : Work W α) (next : α → Work W β) (m : Machine W) :
    (work >>= next) m = match work m with
      | .ok a m => next a m
      | .error e m => .error e m := by
  show EStateM.bind work next m = _
  unfold EStateM.bind
  cases work m <;> rfl

theorem bind_eq_ok {work : Work W α} {next : α → Work W β} {m m' : Machine W} {b : β} :
    (work >>= next) m = .ok b m' ↔ ∃ a m₁, work m = .ok a m₁ ∧ next a m₁ = .ok b m' := by
  rw [bind_eq]
  cases work m with
  | ok a m₁ => simp
  | error e m₁ => simp

theorem made_of_stacks {work : Work W α}
    (h : ∀ m, (leftBy (work m)).heap = m.heap ∧ (leftBy (work m)).background = m.background) : Made work :=
  fun m => .single (.besides (h m).1 (h m).2)

theorem made_of_same {work : Work W α} (h : ∀ m, leftBy (work m) = m) : Made work := by
  intro m
  rw [h m]
  exact .refl

theorem made_pure (a : α) : Made (pure a : Work W α) :=
  made_of_same fun _ => rfl

theorem made_throw (e : Error) : Made (throw e : Work W α) :=
  made_of_same fun _ => rfl

theorem made_bind {work : Work W α} {next : α → Work W β} (h : Made work) (hnext : ∀ a, Made (next a)) :
    Made (work >>= next) := by
  intro m
  have hm := h m
  rw [bind_eq]
  cases hwork : work m with
  | ok a m' =>
    rw [hwork] at hm
    exact hm.trans (hnext a m')
  | error e m' =>
    rw [hwork] at hm
    exact hm

theorem made_ofExcept (x : Except Error α) : Made (ofExcept x : Work W α) := by
  cases x with
  | ok a => exact made_pure a
  | error e => exact made_throw e

theorem made_inspect (f : Machine W → Except Error α) : Made (inspect f) := by
  refine made_of_same fun m => ?_
  unfold inspect
  split <;> rfl

theorem made_modify {f : Machine W → Machine W}
    (h : ∀ m, (f m).heap = m.heap ∧ (f m).background = m.background) : Made (modify f : Work W Unit) :=
  made_of_stacks h

theorem made_modifyGet {f : Machine W → α × Machine W}
    (h : ∀ m, (f m).2.heap = m.heap ∧ (f m).2.background = m.background) : Made (modifyGet f : Work W α) :=
  made_of_stacks h

theorem strokes_heap {m : Machine W} {h : Heap} (hchanges : m.heap.Changes h) : m.Strokes { m with heap := h } :=
  hchanges.lift (fun h => ({ m with heap := h } : Machine W)) fun _ _ hchange => .heap hchange

theorem made_onHeap {f : EStateM Error Heap α} (h : ∀ heap : Heap, heap.Changes (leftBy (f heap))) :
    Made (onHeap f : Work W α) := by
  intro m
  have hm := strokes_heap (h m.heap)
  unfold onHeap
  split
  · rename_i a heap heq
    rw [heq] at hm
    exact hm
  · rename_i e heap heq
    rw [heq] at hm
    exact hm

theorem made_alloc {f : Heap → Heap × Value} (h : ∀ heap : Heap, heap.Change (f heap).1) :
    Made (alloc f : Work W Value) :=
  fun m => .single (.heap (h m.heap))

theorem made_allocString (bytes : List UInt8) : Made (allocString bytes : Work W Value) :=
  made_onHeap fun _ => .single (.string bytes)

theorem made_lend (lender : Lender) (bytes : List UInt8) :
    Made (onHeap fun h => h.lendString lender bytes : Work W Value) :=
  made_onHeap fun _ => .single (.lend lender bytes)

theorem made_setOwn (id : ObjectId) (key v : Value) :
    Made (onHeap fun h => h.set id key v : Work W Unit) :=
  made_onHeap fun _ => .single (.set id key v)

theorem made_modifyItems (id : ObjectId) (f : Array Value → Array Value) :
    Made (onHeap fun h => h.modifyItems id f : Work W Unit) :=
  made_onHeap fun _ => .single (.items id f)

theorem made_newObject : Made (alloc Heap.newObject : Work W Value) :=
  made_alloc fun _ => .cell _

/-! ## Stacks -/

theorem made_push (v : Value) : Made (push v : Work W Unit) :=
  made_modify fun _ => ⟨rfl, rfl⟩

theorem made_pop : Made (pop : Work W Value) := by
  refine made_of_stacks fun m => ?_
  unfold pop
  split <;> exact ⟨rfl, rfl⟩

theorem made_peek (places : Nat) : Made (peek places : Work W Value) := by
  refine made_of_stacks fun m => ?_
  unfold peek
  split <;> exact ⟨rfl, rfl⟩

theorem made_replaceTop (v : Value) : Made (replaceTop v : Work W Unit) := by
  refine made_of_stacks fun m => ?_
  unfold replaceTop
  split <;> exact ⟨rfl, rfl⟩

theorem made_topScope : Made (topScope : Work W Value) := by
  refine made_of_stacks fun m => ?_
  unfold topScope
  split <;> exact ⟨rfl, rfl⟩

theorem made_swapTop : Made (swapTop : Work W Unit) := by
  refine made_of_stacks fun m => ?_
  unfold swapTop
  split <;> exact ⟨rfl, rfl⟩

/-! ## Properties and operators -/

theorem made_keyString (key : Value) : Made (keyString key : Work W Value) := by
  unfold keyString
  split
  · exact made_pure key
  · exact made_bind (made_inspect _) made_allocString

theorem made_setNamed (id : ObjectId) (key v : Value) : Made (setNamed id key v : Work W Unit) :=
  made_bind (made_keyString key) fun key => made_setOwn id key v

theorem made_setByte (id : ObjectId) (i shown : Nat) (b : UInt8) :
    Made (onHeap fun h => h.setByte id i shown b : Work W Unit) :=
  made_onHeap fun _ => .single (.byte id i shown b)

theorem made_setViewItem (id : ObjectId) (i : Nat) (b : UInt8) :
    Made (setViewItem id i b : Work W Unit) := by
  refine made_onHeap fun heap => ?_
  split
  · split
    · exact .single (.byte _ _ _ _)
    · exact .refl
  · exact .refl

theorem made_setForeignItem (env : Embedding W) (address : UInt64) (b : UInt8) :
    Made (setForeignItem env address b) :=
  made_bind (made_ofExcept _) fun _ => made_bind (made_inspect _) fun _ => made_modify fun _ => ⟨rfl, rfl⟩

theorem made_setProperty (env : Embedding W) (holder key v : Value) :
    Made (setProperty env holder key v) := by
  unfold setProperty
  split
  · exact made_setNamed _ key v
  · refine made_bind (made_inspect _) fun name => ?_
    split
    · exact made_modifyItems _ _
    · exact made_setNamed _ key v
  · exact made_bind (made_ofExcept _) fun _ => made_setByte _ _ _ _
  · exact made_bind (made_ofExcept _) fun _ => made_setViewItem _ _ _
  · exact made_bind (made_ofExcept _) fun _ => made_setForeignItem env _ _
  · exact made_throw _

theorem made_binary (op : Code.Operator) (a b : Value) : Made (binary op a b : Work W Value) := by
  unfold binary
  split
  · exact made_ofExcept _
  · exact made_ofExcept _
  · exact made_ofExcept _
  · exact made_pure _
  · split
    · exact made_onHeap fun _ => .single (.concat _ _)
    · exact made_throw _
  · exact made_throw _

theorem made_unary (op : Code.Operator) (v : Value) : Made (unary op v : Work W Value) := by
  unfold unary
  split
  · exact made_bind (made_inspect _) fun _ => made_pure _
  · exact made_pure _
  · exact made_pure _
  · exact made_pure _
  · exact made_lend _ _
  · exact made_throw _

theorem made_update (env : Embedding W) (op : Code.Operator) (holder key v : Value) :
    Made (update env op holder key v) :=
  made_bind (made_inspect _) fun old => made_bind (made_binary op old v) fun new =>
    made_bind (made_setProperty env holder key new) fun _ => made_pure _

theorem made_compoundAssign (env : Embedding W) (op : Code.Operator) : Made (compoundAssign env op) := by
  refine made_bind made_pop fun v => made_bind made_pop fun holder => made_bind made_pop fun key => ?_
  split
  · exact made_bind (made_throw _) fun _ => made_bind (made_update env op holder key v) fun _ => made_push _
  · exact made_bind (made_update env op holder key v) fun _ => made_push _

theorem made_step (env : Embedding W) (op : Code.Operator) (symbol : String) (givesNew : Bool) :
    Made (step env op symbol givesNew) := by
  refine made_bind made_pop fun holder => made_bind made_pop fun key => ?_
  cases givesNew <;>
  · simp only
    split
    · exact made_bind (made_throw _) fun _ => made_bind (made_update env op holder key _) fun _ =>
        made_push _
    · exact made_bind (made_update env op holder key _) fun _ => made_push _

theorem made_assign (env : Embedding W) : Made (assign env) :=
  made_bind made_pop fun v => made_bind made_pop fun holder => made_bind made_pop fun key =>
    made_bind (made_setProperty env holder key v) fun _ => made_push v

/-- What takes two operands and gives a value. -/
theorem made_twoOperands {f : Value → Value → Work W Value} (h : ∀ a b, Made (f a b)) :
    Made (do
      let b ← pop
      let a ← pop
      push (← f a b)) :=
  made_bind made_pop fun b => made_bind made_pop fun a => made_bind (h a b) made_push

theorem made_operate (env : Embedding W) (op : Code.Operator) : Made (operate env op) := by
  cases op with
  | add | sub | mul | div | rem | shl | shr | ushr | bitAnd | bitOr | bitXor =>
    exact made_twoOperands fun a b => made_binary _ a b
  | lt | le | gt | ge => exact made_twoOperands fun a b => made_pure _
  | eq => exact made_throw _
  | ne => exact made_throw _
  | strictEq | strictNe =>
    exact made_bind made_pop fun b => made_bind made_pop fun a => made_bind (made_inspect _) fun _ =>
      made_push _
  | not | bitNot | neg | pos | typeOf =>
    exact made_bind made_pop fun v => made_bind (made_unary _ v) made_push
  | assign => exact made_assign env
  | addAssign | subAssign | mulAssign | divAssign | remAssign | shlAssign | shrAssign | ushrAssign
  | bitAndAssign | bitOrAssign | bitXorAssign => exact made_compoundAssign env _
  | preInc | preDec | postInc | postDec => exact made_step env _ _ _

/-! ## Calls, scopes and loops -/

theorem made_beginArgs (previous : Code.Op) : Made (beginArgs previous : Work W Unit) := by
  refine made_of_stacks fun m => ?_
  unfold beginArgs
  split
  · split <;> exact ⟨rfl, rfl⟩
  · exact ⟨rfl, rfl⟩

theorem made_takePending : Made (takePending : Work W PendingCall) := by
  refine made_of_stacks fun m => ?_
  unfold takePending
  split <;> exact ⟨rfl, rfl⟩

theorem made_callPending (site pos : Nat) : Made (callPending site pos : Work W Flow) := by
  refine made_bind made_takePending fun call => made_bind (made_inspect _) fun callee => ?_
  have hhost : Made (do
      let args ← modifyGet fun m : Machine W =>
        ((m.stack.drop (call.calleeSlot + 1)).toList,
          m.pushFrame (some site) call.calleeSlot call.receiver)
      return Flow.host callee call.receiver args call.calleeSlot pos) :=
    made_bind (made_modifyGet fun _ => ⟨rfl, rfl⟩) fun args => made_pure _
  cases callee with
  | function start => exact made_bind (made_modify fun _ => ⟨rfl, rfl⟩) fun _ => made_pure _
  | native id => exact hhost
  | signature id => exact hhost
  | _ => exact made_throw _

theorem made_returnFromCall : Made (returnFromCall : Work W Flow) := by
  refine made_bind ?_ fun frame => made_bind (made_modify fun _ => ⟨rfl, rfl⟩) fun _ => ?_
  · refine made_of_stacks fun m => ?_
    split <;> exact ⟨rfl, rfl⟩
  · split
    · exact made_pure _
    · exact made_bind made_pop fun v => made_pure _

theorem made_setResult (v : Value) : Made (setResult v : Work W Unit) := by
  refine made_of_stacks fun m => ?_
  unfold setResult
  split
  · exact ⟨rfl, rfl⟩
  · split <;> exact ⟨rfl, rfl⟩

theorem made_openScope : Made (openScope : Work W Unit) :=
  made_bind made_newObject fun _ => made_modify fun _ => ⟨rfl, rfl⟩

theorem made_closeScope : Made (closeScope : Work W Unit) := by
  refine made_of_stacks fun m => ?_
  unfold closeScope
  split <;> exact ⟨rfl, rfl⟩

theorem made_declare (holder key : Value) : Made (declare holder key : Work W Unit) := by
  unfold declare
  split
  · exact made_throw _
  · refine made_bind (made_inspect _) fun known => ?_
    split
    · exact made_setOwn _ key _
    · exact made_pure _

theorem made_openLoop (breakTarget continueTarget : Nat) :
    Made (openLoop breakTarget continueTarget : Work W Unit) :=
  made_modify fun _ => ⟨rfl, rfl⟩

theorem made_breakLoop : Made (breakLoop : Work W Flow) :=
  made_bind (made_inspect _) fun _ => made_bind (made_modify fun _ => ⟨rfl, rfl⟩) fun _ => made_pure _

theorem made_continueLoop : Made (continueLoop : Work W Flow) :=
  made_bind (made_inspect _) fun _ => made_bind (made_modify fun _ => ⟨rfl, rfl⟩) fun _ => made_pure _

theorem made_walk (env : Embedding W) : Made (walk env) := by
  refine made_bind (made_peek 0) fun number => made_bind (made_peek 1) fun holder =>
    made_bind (made_peek 2) fun name => made_bind (made_inspect _) fun key => ?_
  split
  · exact made_bind (made_inspect _) fun _ => made_bind (made_setProperty env _ _ _) fun _ =>
      made_replaceTop _
  · exact made_replaceTop _

/-! ## Instructions -/

theorem made_lookUp (env : Embedding W) (previous : Code.Op) : Made (lookUp env previous) :=
  made_bind made_pop fun _ => made_bind made_pop fun _ => made_bind (made_inspect _) fun v =>
    made_bind (made_push v) fun _ => made_modify fun _ => ⟨rfl, rfl⟩

theorem made_append : Made (append : Work W Unit) := by
  refine made_bind made_pop fun v => made_bind made_pop fun target => ?_
  split
  · exact made_modifyItems _ _
  · exact made_throw _

theorem made_jumpIf (wanted : Bool) (pos distance : Nat) :
    Made (jumpIf wanted pos distance : Work W Flow) := by
  refine made_bind made_pop fun v => made_bind (made_inspect _) fun holds => ?_
  split
  · exact made_bind (made_push _) fun _ => made_pure _
  · exact made_pure _

theorem made_jumpKeeping (wanted : Bool) (pos distance : Nat) :
    Made (jumpKeeping wanted pos distance : Work W Flow) :=
  made_bind (made_peek 0) fun _ => made_bind (made_inspect _) fun _ => made_pure _

theorem made_setArgument (env : Embedding W) (index : Nat) (name : List UInt8) :
    Made (setArgument env index name) :=
  made_bind (made_allocString name) fun key => made_bind (made_inspect _) fun v =>
    made_bind made_topScope fun scope => made_setProperty env scope key v

theorem made_carryOut (env : Embedding W) (c : Cursor) (i : Code.Instr) (firstEnd next : Nat) :
    Made (carryOut env c i firstEnd next) := by
  have hnext : Made (pure (Flow.goOn next) : Work W Flow) := made_pure _
  cases i with
  | nop => exact hnext
  | drop => exact made_bind made_pop fun _ => hnext
  | dup => exact made_bind (made_peek 0) fun v => made_bind (made_push v) fun _ => hnext
  | dup2 =>
    exact made_bind (made_peek 1) fun a => made_bind (made_peek 0) fun b => made_bind (made_push a)
      fun _ => made_bind (made_push b) fun _ => hnext
  | swap => exact made_bind made_swapTop fun _ => hnext
  | jmp distance => exact made_pure _
  | jmpTrue distance => exact made_jumpIf _ _ _
  | jmpFalse distance => exact made_jumpIf _ _ _
  | jmpNeutralTrue distance => exact made_jumpKeeping _ _ _
  | jmpNeutralFalse distance => exact made_jumpKeeping _ _ _
  | findScope =>
    exact made_bind (made_peek 0) fun _ => made_bind (made_inspect _) fun v =>
      made_bind (made_push v) fun _ => hnext
  | pushScope => exact made_bind made_topScope fun v => made_bind (made_push v) fun _ => hnext
  | pushStr text =>
    exact made_bind (made_allocString text) fun v => made_bind (made_push v) fun _ => hnext
  | pushTrue | pushFalse | pushNull | pushUndef | pushInt | pushDbl =>
    exact made_bind (made_push _) fun _ => hnext
  | pushObj => exact made_bind made_newObject fun v => made_bind (made_push v) fun _ => hnext
  | pushArray =>
    exact made_bind (made_alloc fun _ => .cell _) fun v =>
      made_bind (made_push v) fun _ => hnext
  | pushFunc back =>
    exact made_bind (made_ofExcept _) fun v => made_bind (made_push v) fun _ => hnext
  | pushThis => exact made_bind (made_inspect _) fun v => made_bind (made_push v) fun _ => hnext
  | get => exact made_bind (made_lookUp env _) fun _ => hnext
  | create =>
    exact made_bind made_pop fun holder => made_bind made_pop fun key =>
      made_bind (made_declare holder key) fun _ => hnext
  | expr op => exact made_bind (made_operate env op) fun _ => hnext
  | append => exact made_bind made_append fun _ => hnext
  | setArg index name => exact made_bind (made_setArgument env index name) fun _ => hnext
  | newScope => exact made_bind made_openScope fun _ => hnext
  | delScope => exact made_bind made_closeScope fun _ => hnext
  | args => exact made_bind (made_beginArgs _) fun _ => hnext
  | call => exact made_callPending _ _
  | «return» => exact made_returnFromCall
  | setRetVal => exact made_bind made_pop fun v => made_bind (made_setResult v) fun _ => hnext
  | loop breakDistance continueDistance => exact made_bind (made_openLoop _ _) fun _ => hnext
  | «break» => exact made_breakLoop
  | «continue» => exact made_continueLoop
  | exit => exact made_bind made_pop fun _ => made_pure _
  | header => exact made_pure _
  | forInNext => exact made_bind (made_walk env) fun _ => hnext

/-- A single instruction is made of strokes. -/
theorem made_advance (env : Embedding W) (c : Cursor) : Made (advance env c) := by
  unfold advance
  split
  · refine made_bind (made_carryOut env c _ _ _) fun flow => ?_
    cases flow with
    | jump offset => exact made_bind (made_inspect _) fun _ => made_pure _
    | _ => exact made_pure _
  · exact made_throw _
  · exact made_throw _
  · exact made_throw _
  · exact made_throw _

/-! ## Functions that every machine has -/

theorem made_die (args : List Value) : Made (die args : Work W Value) :=
  made_bind (made_inspect _) fun _ => made_throw _

theorem made_resolveForeign (env : Embedding W) (text : String) : Made (resolveForeign env text) := by
  refine made_bind (made_ofExcept _) fun signature => made_bind (made_ofExcept _) fun host => ?_
  split
  · exact made_throw _
  · exact made_alloc fun _ => .signature _

theorem made_ffi (env : Embedding W) (args : List Value) : Made (ffi env args) :=
  made_bind (made_inspect _) (made_resolveForeign env)

theorem made_newBuffer (args : List Value) : Made (newBuffer args : Work W Value) :=
  made_bind (made_ofExcept _) fun _ => made_alloc fun _ => .cell _

/-- The range of a view is checked against the size of its buffer. -/
theorem viewRange_le {args : List Value} {size offset length : Nat} (h : viewRange args size = .ok (offset, length)) :
    offset + length ≤ size := by
  unfold viewRange at h
  cases hoffset : sizeArg args 1 "byteOffset" with
  | error e =>
    rw [hoffset] at h
    cases h
  | ok first =>
    cases hlength : sizeArg args 2 "byteLength" with
    | error e =>
      simp only [hoffset, hlength, bind, Except.bind] at h
      split at h <;> cases h
    | ok count =>
      simp only [hoffset, hlength, bind, Except.bind, pure, Except.pure] at h
      split at h
      · cases h
      · split at h
        · cases h
        · cases h
          omega

theorem made_newView (args : List Value) : Made (newView args : Work W Value) := by
  unfold newView
  split
  · rename_i id _
    intro m
    rw [bind_eq, inspect]
    cases hbuffer : m.heap.buffer id with
    | error e => exact .refl
    | ok bytes =>
      simp only [bind_eq]
      cases hrange : viewRange args bytes.size with
      | error e => exact .refl
      | ok range =>
        have hadmits : m.heap.Admits (.view id range.1 range.2) :=
          ⟨bytes.size, Heap.extent?_of_buffer hbuffer, viewRange_le hrange⟩
        exact .single (.heap (.cell (.view id range.1 range.2) hadmits))
  · exact made_throw _

theorem made_pushItems (receiver : Value) (args : List Value) :
    Made (pushItems receiver args : Work W Value) := by
  unfold pushItems
  split
  · exact made_bind (made_modifyItems _ _) fun _ => made_bind (made_inspect _) fun _ => made_pure _
  · exact made_throw _

theorem made_slice (receiver : Value) (args : List Value) : Made (slice receiver args : Work W Value) :=
  made_bind (made_inspect _) made_allocString

theorem made_toText (receiver : Value) : Made (toText receiver : Work W Value) :=
  made_bind (made_inspect _) made_allocString

/-! ## Native code -/

/-- What native code hands over. -/
theorem made_toValue (type : Ffi.CType) (arg : Ffi.Arg) :
    Made (onHeap fun h => Ffi.Arg.toValue h type arg : Work W Value) := by
  refine made_onHeap fun heap => ?_
  unfold Ffi.Arg.toValue
  split
  case h_7 | h_8 => exact .single (.string _)
  case h_9 => split <;> exact .refl
  case h_10 =>
    split
    · exact .refl
    · split <;> exact .refl
  all_goals exact .refl

theorem made_callbackValues (userdata : Value) (types : List Ffi.CType) (args : List Ffi.Arg) :
    Made (callbackValues userdata types args : Work W (List Value)) := by
  induction types generalizing args with
  | nil => exact made_pure _
  | cons type types ih =>
    cases args with
    | nil => exact made_pure _
    | cons arg args =>
      unfold callbackValues
      split
      · exact made_bind (made_pure _) fun _ => made_bind (ih args) fun _ => made_pure _
      · exact made_bind (made_toValue type arg) fun _ => made_bind (ih args) fun _ => made_pure _

theorem made_acceptCallback (id : CallbackId) (args : List Ffi.Arg) :
    Made (acceptCallback id args : Work W (Ffi.Registration × List Value)) := by
  refine made_bind (made_inspect _) fun r => ?_
  have hrest : Made (do
      let values ← callbackValues r.userdata r.signature.args args
      return (r, values) : Work W (Ffi.Registration × List Value)) :=
    made_bind (made_callbackValues _ _ _) fun _ => made_pure _
  simp only
  split
  · exact made_bind (made_throw _) fun _ => hrest
  · exact hrest

/-! ## What an embedder can ask for -/

theorem made_setBuiltin (b : Builtin) : Made (setBuiltin b : Work W Unit) :=
  made_bind (made_inspect _) fun id => made_bind (made_lend _ _) fun key => made_setOwn id key _

theorem made_setGlobal (name : String) (v : Value) : Made (setGlobal name v : Work W Unit) :=
  made_bind (made_inspect _) fun id => made_bind (made_allocString _) fun key => made_setOwn id key v

theorem made_install : Made (install : Work W Unit) := by
  refine made_bind made_newObject fun _ => made_bind (made_modify fun _ => ⟨rfl, rfl⟩) fun _ => ?_
  generalize Builtin.globals = builtins
  induction builtins with
  | nil => exact made_pure _
  | cons b rest ih => exact made_bind (made_setBuiltin b) fun _ => ih

theorem made_set (obj : Value) (name : String) (v : Value) : Made (set obj name v : Work W Unit) :=
  made_bind (made_ofExcept _) fun id => made_bind (made_allocString _) fun key => made_setOwn id key v

theorem made_delete (obj : Value) (name : String) : Made (delete obj name : Work W Bool) :=
  made_bind (made_ofExcept _) fun id => made_bind (made_allocString _) fun key =>
    made_onHeap fun _ => .single (.delete id key)

theorem made_arraySet (arr : Value) (index : Nat) (v : Value) :
    Made (arraySet arr index v : Work W Unit) :=
  made_bind (made_ofExcept _) fun id => made_modifyItems id _

theorem made_arrayPush (arr v : Value) : Made (arrayPush arr v : Work W Unit) :=
  made_bind (made_ofExcept _) fun id => made_modifyItems id _

end Machine

end ScriptEngine
