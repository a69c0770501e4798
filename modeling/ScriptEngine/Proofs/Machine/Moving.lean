import ScriptEngine.Proofs.Heap.Renaming
import ScriptEngine.Proofs.Machine.Operations
/-!
The same machine over other code.

A `Move` says where things are in other code: functions, call sites, the targets of loops, and the
instruction that failed last. A machine can be moved, and work that is `Parallel` to other work does on a
moved machine what that does on the machine itself. Work that reads neither the code nor the output is
parallel to itself with its values renamed; the statements follow the operations of a machine.
-/

namespace ScriptEngine

/-- Where things are in other code, and what else belongs to it. -/
structure Move where
  functions : Renaming
  site : Nat → Nat
  target : Nat → Nat
  failure : Nat → Nat
  program : Code.Program
  output : Output
  width : Nat

namespace Move

variable {W α β γ δ : Type} (M : Move)

/-- A value over other code. -/
def value (v : Value) : Value :=
  M.functions.value v

/-- A frame over other code. -/
def frame (f : Frame) : Frame :=
  { f with receiver := M.value f.receiver, callSite := f.callSite.map M.site }

/-- A pending call over other code. -/
def pending (c : PendingCall) : PendingCall :=
  { c with receiver := M.value c.receiver }

/-- A loop over other code. -/
def loop (l : LoopFrame) : LoopFrame :=
  { l with breakTarget := M.target l.breakTarget, continueTarget := M.target l.continueTarget }

/-- A machine over other code. -/
def machine (m : Machine W) : Machine W :=
  { m with
    options := { m.options with placeholderWidth := M.width }
    heap := M.functions.heap m.heap
    program := M.program
    stack := m.stack.map M.value
    frames := m.frames.map M.frame
    pending := m.pending.map M.pending
    scopes := m.scopes.map M.value
    loops := m.loops.map M.loop
    receiver := M.value m.receiver
    lastHolder := M.value m.lastHolder
    roots := m.roots.map M.value
    callbacks := m.callbacks.map M.value
    failedAt := M.failure m.failedAt
    output := M.output }

/-- What comes of work, over other code. -/
def result (f : α → β) : EStateM.Result Error (Machine W) α → EStateM.Result Error (Machine W) β
  | .ok a m => .ok (f a) (M.machine m)
  | .error e m => .error e (M.machine m)

/-- Work does over other code what other work does. -/
def Parallel (f : α → β) (work : Machine.Work W α) (work' : Machine.Work W β) : Prop :=
  ∀ m, work' (M.machine m) = M.result f (work m)

@[simp] theorem value_undefined : M.value .undefined = .undefined := rfl

@[simp] theorem value_ofNat (n : Nat) : M.value (.ofNat n) = .ofNat n := rfl

@[simp] theorem propertyHolder?_value (v : Value) : (M.value v).propertyHolder? = v.propertyHolder? :=
  M.functions.propertyHolder?_value v

@[simp] theorem asNumber?_value (v : Value) : (M.value v).asNumber? = v.asNumber? :=
  M.functions.asNumber?_value v

@[simp] theorem toNumber_value (v : Value) : (M.value v).toNumber = v.toNumber :=
  M.functions.toNumber_value v

@[simp] theorem isString_value (v : Value) : (M.value v).isString = v.isString :=
  M.functions.isString_value v

@[simp] theorem typeName_value (v : Value) : (M.value v).typeName = v.typeName :=
  M.functions.typeName_value v

@[simp] theorem heap_machine (m : Machine W) : (M.machine m).heap = M.functions.heap m.heap := rfl

@[simp] theorem stack_machine (m : Machine W) : (M.machine m).stack = m.stack.map M.value := rfl

@[simp] theorem scopes_machine (m : Machine W) : (M.machine m).scopes = m.scopes.map M.value := rfl

@[simp] theorem frames_machine (m : Machine W) : (M.machine m).frames = m.frames.map M.frame := rfl

@[simp] theorem world_machine (m : Machine W) : (M.machine m).world = m.world := rfl

end Move

namespace Machine

variable {W α β γ δ : Type} {M : Move}

/-! ## Making work -/

theorem parallel_pure (f : α → β) (a : α) : M.Parallel (W := W) f (pure a) (pure (f a)) :=
  fun _ => rfl

theorem parallel_throw (f : α → β) (e : Error) : M.Parallel (W := W) f (throw e) (throw e) :=
  fun _ => rfl

theorem parallel_bind {k : α → γ} {f : β → δ} {work : Work W α} {work' : Work W γ}
    {next : α → Work W β} {next' : γ → Work W δ} (h : M.Parallel k work work')
    (hnext : ∀ a, M.Parallel f (next a) (next' (k a))) :
    M.Parallel f (work >>= next) (work' >>= next') := by
  intro m
  rw [bind_eq, bind_eq, h m]
  cases work m with
  | ok a m => exact hnext a m
  | error e m => rfl

theorem parallel_ofExcept (f : α → β) (x : Except Error α) :
    M.Parallel (W := W) f (ofExcept x) (ofExcept (x.map f)) := by
  intro m
  cases x <;> rfl

theorem parallel_inspect {f : α → β} {look : Machine W → Except Error α}
    {look' : Machine W → Except Error β} (h : ∀ m, look' (M.machine m) = (look m).map f) :
    M.Parallel f (inspect look) (inspect look') := by
  intro m
  unfold inspect
  rw [h m]
  cases look m <;> rfl

theorem parallel_onHeap {f : α → β} {change : EStateM Error Heap α} {change' : EStateM Error Heap β}
    (h : ∀ heap, change' (M.functions.heap heap) = M.functions.result f (change heap)) :
    M.Parallel (W := W) f (onHeap change) (onHeap change') := by
  intro m
  unfold onHeap
  rw [Move.heap_machine, h m.heap]
  cases change m.heap <;> rfl

theorem parallel_alloc {make make' : Heap → Heap × Value}
    (h : ∀ heap, make' (M.functions.heap heap) = (M.functions.heap (make heap).1, M.value (make heap).2)) :
    M.Parallel (W := W) M.value (alloc make) (alloc make') := by
  intro m
  unfold alloc
  rw [Move.heap_machine, h m.heap]
  rfl

theorem parallel_modify {g g' : Machine W → Machine W} (h : ∀ m, g' (M.machine m) = M.machine (g m)) :
    M.Parallel (fun u => u) (modify g : Work W Unit) (modify g') :=
  fun m => congrArg (EStateM.Result.ok ()) (h m)

theorem parallel_modifyGet {f : α → β} {g : Machine W → α × Machine W} {g' : Machine W → β × Machine W}
    (h : ∀ m, g' (M.machine m) = (f (g m).1, M.machine (g m).2)) :
    M.Parallel f (modifyGet g : Work W α) (modifyGet g') := by
  intro m
  show (match g' (M.machine m) with | (a, s) => EStateM.Result.ok a s) = _
  rw [h m]
  rfl

theorem parallel_allocString (bytes : List UInt8) :
    M.Parallel (W := W) M.value (allocString bytes) (allocString bytes) :=
  parallel_onHeap fun heap => M.functions.newString_heap heap bytes

theorem parallel_lend (lender : Lender) (bytes : List UInt8) :
    M.Parallel (W := W) M.value (onHeap fun h => h.lendString lender bytes)
      (onHeap fun h => h.lendString lender bytes) :=
  parallel_onHeap fun heap => M.functions.lendString_heap heap lender bytes

theorem parallel_setOwn (id : ObjectId) (key v : Value) :
    M.Parallel (W := W) (fun u => u) (onHeap fun h => h.set id key v)
      (onHeap fun h => h.set id (M.value key) (M.value v)) :=
  parallel_onHeap fun heap => M.functions.set_heap heap id key v

theorem parallel_newObject : M.Parallel (W := W) M.value (alloc Heap.newObject) (alloc Heap.newObject) :=
  parallel_alloc fun heap => M.functions.newObject_heap heap

/-! ## Stacks -/

theorem parallel_push (v : Value) : M.Parallel (W := W) (fun u => u) (push v) (push (M.value v)) := by
  refine parallel_modify fun m => ?_
  simp [Move.machine]

theorem back?_map {ι κ : Type} (f : ι → κ) (xs : Array ι) : (xs.map f).back? = xs.back?.map f := by
  simp [Array.back?]

theorem parallel_pop : M.Parallel (W := W) M.value pop pop := by
  intro m
  unfold pop
  rw [Move.stack_machine, back?_map]
  cases m.stack.back? with
  | none => rfl
  | some v => simp [Move.machine, Move.result]

theorem below?_machine (m : Machine W) (places : Nat) :
    (M.machine m).below? places = (m.below? places).map M.value := by
  unfold below?
  simp only [Move.stack_machine, Array.size_map, Array.getElem?_map]
  split <;> rfl

theorem parallel_peek (places : Nat) : M.Parallel (W := W) M.value (peek places) (peek places) := by
  intro m
  unfold peek
  rw [below?_machine]
  cases m.below? places <;> rfl

theorem parallel_replaceTop (v : Value) :
    M.Parallel (W := W) (fun u => u) (replaceTop v) (replaceTop (M.value v)) := by
  intro m
  unfold replaceTop
  have hempty : (M.machine m).stack.isEmpty = m.stack.isEmpty := by simp [Array.isEmpty]
  rw [hempty]
  cases m.stack.isEmpty with
  | true => rfl
  | false => simp [Move.machine, Move.result, Array.map_setIfInBounds]

theorem parallel_topScope : M.Parallel (W := W) M.value topScope topScope := by
  intro m
  unfold topScope
  rw [Move.scopes_machine, back?_map]
  cases m.scopes.back? <;> rfl

theorem parallel_swapTop : M.Parallel (W := W) (fun u => u) swapTop swapTop := by
  intro m
  unfold swapTop
  rw [below?_machine, below?_machine]
  cases m.below? 0 with
  | none => rfl
  | some a =>
    cases m.below? 1 with
    | none => rfl
    | some b => simp [Move.machine, Move.result]

/-! ## Properties -/

theorem parallel_keyString (key : Value) :
    M.Parallel (W := W) M.value (keyString key) (keyString (M.value key)) := by
  unfold keyString
  rw [Move.isString_value]
  split
  · exact parallel_pure M.value key
  · refine parallel_bind (k := fun bytes => bytes) (parallel_inspect fun m => ?_) parallel_allocString
    rw [Move.heap_machine, Move.value, Renaming.textOf_heap]
    cases m.heap.textOf key <;> rfl

theorem parallel_setNamed (id : ObjectId) (key v : Value) :
    M.Parallel (W := W) (fun u => u) (setNamed id key v) (setNamed id (M.value key) (M.value v)) :=
  parallel_bind (parallel_keyString key) fun key => parallel_setOwn id key v

theorem parallel_setByte (id : ObjectId) (i shown : Nat) (b : UInt8) :
    M.Parallel (W := W) (fun u => u) (onHeap fun h => h.setByte id i shown b)
      (onHeap fun h => h.setByte id i shown b) :=
  parallel_onHeap fun heap => M.functions.setByte_heap heap id i shown b

theorem parallel_setViewItem (id : ObjectId) (i : Nat) (b : UInt8) :
    M.Parallel (W := W) (fun u => u) (setViewItem id i b) (setViewItem id i b) := by
  refine parallel_onHeap fun heap => ?_
  rw [Renaming.view_heap]
  rcases heap.view id with e | ⟨buffer, offset, length⟩
  · rfl
  · simp only
    split
    · exact M.functions.setByte_heap heap buffer (offset + i) i b
    · rfl

theorem parallel_setForeignItem (env : Embedding W) (address : UInt64) (b : UInt8) :
    M.Parallel (fun u => u) (setForeignItem env address b) (setForeignItem env address b) := by
  have hhost : M.Parallel (W := W) (fun host : Ffi.Host W => host) (ofExcept env.requireHost)
      (ofExcept env.requireHost) := by
    intro m
    cases env.requireHost <;> rfl
  refine parallel_bind hhost fun host => parallel_bind (k := fun w => w) (parallel_inspect fun m => ?_)
    fun world => parallel_modify fun m => rfl
  rw [Move.world_machine]
  cases host.writeByte m.world address b <;> rfl

theorem keyIndex?_value (key : Value) (name : List UInt8) : keyIndex? (M.value key) name = keyIndex? key name := by
  cases key <;> rfl

theorem byteAssignment_value (key v : Value) : byteAssignment (M.value key) (M.value v) = byteAssignment key v := by
  unfold byteAssignment
  rw [Move.asNumber?_value, Move.asNumber?_value]

theorem parallel_setProperty (env : Embedding W) (holder key v : Value) :
    M.Parallel (fun u => u) (setProperty env holder key v)
      (setProperty env (M.value holder) (M.value key) (M.value v)) := by
  have hbyte : M.Parallel (W := W) (fun place => place) (ofExcept (byteAssignment key v))
      (ofExcept (byteAssignment (M.value key) (M.value v))) := by
    rw [byteAssignment_value]
    intro m
    cases byteAssignment key v <;> rfl
  cases holder with
  | object id => exact parallel_setNamed id key v
  | array id =>
    refine parallel_bind (k := fun name => name) (parallel_inspect fun m => ?_) fun name => ?_
    · rw [Move.heap_machine, Move.value, Renaming.textOf_heap]
      cases m.heap.textOf key <;> rfl
    · simp only [keyIndex?_value]
      split
      · exact parallel_onHeap fun heap => M.functions.arraySet_heap heap id _ v
      · exact parallel_setNamed id key v
  | arrayBuffer id => exact parallel_bind hbyte fun place => parallel_setByte id _ _ _
  | dataView id => exact parallel_bind hbyte fun place => parallel_setViewItem id _ _
  | foreign address => exact parallel_bind hbyte fun place => parallel_setForeignItem env _ _
  | _ => exact parallel_throw _ _

theorem value_byteValue (b : UInt8) : M.value (byteValue b) = byteValue b := rfl

theorem value_textItem (strings : StringHeap) (text : StringRef) (i : Nat) :
    M.value (textItem strings text i) = textItem strings text i := by
  unfold textItem
  cases strings.byte? text i with
  | none => rfl
  | some b =>
    simp only
    cases hinline : Value.ofInline? [b] with
    | none => rfl
    | some v => exact M.functions.value_ofInline? hinline

theorem textProperty_value (strings : StringHeap) (text : StringRef) (key : Value) (name : List UInt8) :
    textProperty strings text (M.value key) name = (textProperty strings text key name).map M.value := by
  unfold textProperty
  rw [keyIndex?_value]
  split
  all_goals try rfl
  cases keyIndex? key name with
  | none => rfl
  | some i => simp only [Option.map_some, value_textItem]

theorem bufferProperty_value (h : Heap) (id : ObjectId) (key : Value) (name : List UInt8) :
    (M.functions.heap h).bufferProperty id (M.value key) name
      = (h.bufferProperty id key name).map (Option.map M.value) := by
  unfold Heap.bufferProperty
  rw [Renaming.buffer_heap, keyIndex?_value]
  cases h.buffer id with
  | error e => rfl
  | ok bytes =>
    simp only [bind, Except.bind]
    split
    · rfl
    · cases keyIndex? key name with
      | none => rfl
      | some i =>
        simp only [Option.map_some]
        cases bytes.byte? i <;> rfl

theorem viewItem_value (h : Heap) (buffer : ObjectId) (offset length i : Nat) :
    (M.functions.heap h).viewItem buffer offset length i = (h.viewItem buffer offset length i).map M.value := by
  unfold Heap.viewItem
  rw [Renaming.buffer_heap]
  split
  · cases h.buffer buffer <;> rfl
  · rfl

theorem viewProperty_value (h : Heap) (id : ObjectId) (key : Value) (name : List UInt8) :
    (M.functions.heap h).viewProperty id (M.value key) name
      = (h.viewProperty id key name).map (Option.map M.value) := by
  unfold Heap.viewProperty
  rw [Renaming.view_heap, keyIndex?_value]
  rcases h.view id with e | ⟨buffer, offset, length⟩
  · rfl
  · simp only [bind, Except.bind, Renaming.buffer_heap, viewItem_value]
    split
    · cases h.buffer buffer <;> rfl
    · rfl
    · rfl
    · cases keyIndex? key name with
      | none => rfl
      | some i =>
        simp only
        cases h.viewItem buffer offset length i <;> rfl

theorem arrayProperty_value (h : Heap) (id : ObjectId) (name : List UInt8) :
    (M.functions.heap h).arrayProperty id name = (h.arrayProperty id name).map (Option.map M.value) := by
  unfold Heap.arrayProperty
  rw [Renaming.items_heap]
  split
  · rfl
  · cases h.items id with
    | error e => rfl
    | ok items => simp [Except.map]
  · rfl

theorem foreignItem_machine (env : Embedding W) (m : Machine W) (address : Address) (key : Value)
    (name : List UInt8) :
    (M.machine m).foreignItem env address (M.value key) name = (m.foreignItem env address key name).map M.value := by
  unfold foreignItem
  rw [keyIndex?_value, Move.world_machine]
  cases keyIndex? key name with
  | none => rfl
  | some i =>
    cases env.requireHost with
    | error e => rfl
    | ok host =>
      simp only [bind, Except.bind]
      cases host.readByte m.world (address.word + UInt64.ofNat i) <;> rfl

theorem kindProperty_machine (env : Embedding W) (m : Machine W) (holder key : Value) (name : List UInt8) :
    (M.machine m).kindProperty env (M.value holder) (M.value key) name
      = (m.kindProperty env holder key name).map (Option.map M.value) := by
  have happly {x y : Except Error (Option Value)} (h : x = y.map (Option.map M.value)) :
      (if KindProperty.ofName name = .apply then .ok (some Builtin.apply.value) else x)
        = (if KindProperty.ofName name = .apply then .ok (some Builtin.apply.value) else y).map
          (Option.map M.value) := by
    rw [h]
    split <;> rfl
  cases holder with
  | string text => exact congrArg Except.ok (textProperty_value m.heap.strings text key name)
  | number n =>
    refine happly (congrArg Except.ok ?_)
    split <;> rfl
  | array id => exact happly (arrayProperty_value m.heap id name)
  | foreign address =>
    refine happly ?_
    rw [foreignItem_machine]
    cases m.foreignItem env address key name <;> rfl
  | arrayBuffer id => exact happly (bufferProperty_value m.heap id key name)
  | dataView id => exact happly (viewProperty_value m.heap id key name)
  | _ => exact happly rfl

theorem ownProperty_machine (m : Machine W) (holder key : Value) (name : List UInt8) :
    (M.machine m).ownProperty (M.value holder) (M.value key) name = (m.ownProperty holder key name).map M.value := by
  have hget (id : ObjectId) : ((M.functions.heap m.heap).get id name).map (fun v => v.getD .undefined)
      = ((m.heap.get id name).map fun v => v.getD .undefined).map M.value := by
    rw [Renaming.get_heap]
    rcases m.heap.get id name with e | _ | v <;> rfl
  cases holder with
  | object id => exact hget id
  | array id =>
    have hindex := keyIndex?_value (M := M) key name
    unfold ownProperty
    simp only [Move.value, Renaming.value] at hindex ⊢
    rw [hindex]
    cases keyIndex? key name with
    | none => exact hget id
    | some i =>
      simp only [Move.heap_machine, Renaming.items_heap]
      cases m.heap.items id with
      | error e => rfl
      | ok items =>
        simp only [Except.map, Array.getElem?_map]
        cases items[i]? <;> rfl
  | _ => rfl

theorem property_machine (env : Embedding W) (m : Machine W) (holder key : Value) :
    (M.machine m).property env (M.value holder) (M.value key) = (m.property env holder key).map M.value := by
  unfold property
  rw [Move.heap_machine, Move.value, Move.value, Renaming.textOf_heap, ← Move.value, ← Move.value]
  cases m.heap.textOf key with
  | error e => rfl
  | ok name =>
    simp only [bind, Except.bind, kindProperty_machine, ownProperty_machine]
    rcases m.kindProperty env holder key name with e | _ | v <;> rfl

theorem walkKey_machine (m : Machine W) (holder : Value) (n : Nat) :
    (M.machine m).walkKey (M.value holder) n = (m.walkKey holder n).map (Option.map M.value) := by
  cases holder with
  | object id => exact M.functions.nthKey_heap m.heap id n
  | array id =>
    show ((M.functions.heap m.heap).items id).map _ = ((m.heap.items id).map _).map _
    rw [Renaming.items_heap]
    cases m.heap.items id with
    | error e => rfl
    | ok items =>
      simp only [Except.map, Array.size_map]
      split <;> rfl
  | _ => rfl

theorem declaringScope?_machine (h : Heap) (name : List UInt8) (scopes : Array Value) (n : Nat) :
    declaringScope? (M.functions.heap h) name (scopes.map M.value) n
      = (declaringScope? h name scopes n).map (Option.map M.value) := by
  induction n with
  | zero => rfl
  | succ n ih =>
    have hscope : (scopes.map M.value).getD n .undefined = M.value (scopes.getD n .undefined) := by
      simp only [Array.getD_eq_getD_getElem?, Array.getElem?_map]
      cases scopes[n]? <;> rfl
    simp only [declaringScope?, hscope, Move.propertyHolder?_value, Renaming.getOwn_heap, ih]
    cases (scopes.getD n .undefined).propertyHolder? with
    | none => rfl
    | some id =>
      dsimp only
      rcases h.getOwn id name with e | _ | v <;> rfl

theorem findScope_machine (m : Machine W) (name : Value) :
    (M.machine m).findScope (M.value name) = (m.findScope name).map M.value := by
  unfold findScope
  rw [Move.heap_machine, Move.value, Renaming.keyBytes_heap, Move.scopes_machine]
  cases m.heap.keyBytes name with
  | error e => rfl
  | ok bytes =>
    simp only [Except.bind, bind, Array.size_map, declaringScope?_machine]
    rcases declaringScope? m.heap bytes m.scopes m.scopes.size with e | _ | v <;> rfl

/-! ## Operators -/

theorem truthy_machine (m : Machine W) (v : Value) : (M.machine m).heap.truthy (M.value v) = m.heap.truthy v :=
  M.functions.truthy_heap m.heap v

theorem parallel_truthy (v : Value) :
    M.Parallel (W := W) (fun holds => holds) (inspect fun m => .ok (m.heap.truthy v))
      (inspect fun m => .ok (m.heap.truthy (M.value v))) :=
  parallel_inspect fun m => congrArg Except.ok (truthy_machine m v)

theorem parallel_property (env : Embedding W) (holder key : Value) :
    M.Parallel M.value (inspect fun m => m.property env holder key)
      (inspect fun m => m.property env (M.value holder) (M.value key)) :=
  parallel_inspect fun m => property_machine env m holder key

theorem value_number (n : Number) : M.value (.number n) = .number n := rfl

theorem parallel_binary (op : Code.Operator) (a b : Value) :
    M.Parallel (W := W) M.value (binary op a b) (binary op (M.value a) (M.value b)) := by
  have hdistance (p q : Address) :
      (addressDistance op p q).map M.value = addressDistance op p q := by
    unfold addressDistance
    split <;> rfl
  have hmove (p : Address) (n : Number) (first : Bool) :
      (moveAddress op p n first).map M.value = moveAddress op p n first := by
    have haddress (word : UInt64) : (addressValue word).map M.value = addressValue word := by
      unfold addressValue Value.ofAddress?
      cases Address.ofWord? word <;> rfl
    unfold moveAddress
    split
    · exact haddress _
    · exact haddress _
    · rfl
  cases a <;> cases b
  case foreign.foreign p q =>
    have h := parallel_ofExcept (W := W) (M := M) M.value (addressDistance op p q)
    rwa [hdistance] at h
  case foreign.number p n =>
    have h := parallel_ofExcept (W := W) (M := M) M.value (moveAddress op p n true)
    rwa [hmove] at h
  case number.foreign n p =>
    have h := parallel_ofExcept (W := W) (M := M) M.value (moveAddress op p n false)
    rwa [hmove] at h
  case number.number x y => exact parallel_pure M.value _
  case string.string s t =>
    simp only [binary, Move.value, Renaming.value_string]
    split
    · exact parallel_onHeap fun heap => M.functions.concatStrings_heap heap s t
    · exact parallel_throw _ _
  all_goals exact parallel_throw _ _

theorem parallel_unary (op : Code.Operator) (v : Value) :
    M.Parallel (W := W) M.value (unary op v) (unary op (M.value v)) := by
  cases op
  case not => exact parallel_bind (parallel_truthy v) fun holds => parallel_pure M.value _
  case pos => exact parallel_pure M.value v
  case typeOf =>
    simp only [unary, Move.typeName_value]
    exact parallel_lend _ _
  case neg | bitNot =>
    simp only [unary, Move.toNumber_value]
    exact parallel_pure M.value _
  all_goals exact parallel_throw _ _

theorem parallel_update (env : Embedding W) (op : Code.Operator) (holder key v : Value) :
    M.Parallel (fun vs : Value × Value => (M.value vs.1, M.value vs.2)) (update env op holder key v)
      (update env op (M.value holder) (M.value key) (M.value v)) :=
  parallel_bind (parallel_property env holder key) fun old => parallel_bind (parallel_binary op old v)
    fun new => parallel_bind (parallel_setProperty env holder key new) fun _ => parallel_pure _ (old, new)

theorem parallel_compoundAssign (env : Embedding W) (op : Code.Operator) :
    M.Parallel (fun u => u) (compoundAssign env op) (compoundAssign env op) := by
  refine parallel_bind parallel_pop fun v => parallel_bind parallel_pop fun holder =>
    parallel_bind parallel_pop fun key => ?_
  have hupdate : M.Parallel (fun u => u) (update env op holder key v >>= fun vs => push vs.2)
      (update env op (M.value holder) (M.value key) (M.value v) >>= fun vs => push vs.2) :=
    parallel_bind (parallel_update env op holder key v) fun vs => parallel_push vs.2
  rw [Move.propertyHolder?_value]
  split
  · exact parallel_bind (k := fun u => u) (parallel_throw _ _) fun _ => hupdate
  · exact hupdate

theorem parallel_step (env : Embedding W) (op : Code.Operator) (symbol : String) (givesNew : Bool) :
    M.Parallel (fun u => u) (step env op symbol givesNew) (step env op symbol givesNew) := by
  refine parallel_bind parallel_pop fun holder => parallel_bind parallel_pop fun key => ?_
  have hold : M.Parallel (fun u => u) (update env op holder key (.ofNat 1) >>= fun vs => push vs.1)
      (update env op (M.value holder) (M.value key) (.ofNat 1) >>= fun vs => push vs.1) :=
    parallel_bind (parallel_update env op holder key (.ofNat 1)) fun vs => parallel_push vs.1
  have hnew : M.Parallel (fun u => u) (update env op holder key (.ofNat 1) >>= fun vs => push vs.2)
      (update env op (M.value holder) (M.value key) (.ofNat 1) >>= fun vs => push vs.2) :=
    parallel_bind (parallel_update env op holder key (.ofNat 1)) fun vs => parallel_push vs.2
  rw [Move.propertyHolder?_value]
  cases givesNew
  · simp only
    split
    · exact parallel_bind (k := fun u => u) (parallel_throw _ _) fun _ => hold
    · exact hold
  · simp only
    split
    · exact parallel_bind (k := fun u => u) (parallel_throw _ _) fun _ => hnew
    · exact hnew

theorem parallel_assign (env : Embedding W) : M.Parallel (fun u => u) (assign env) (assign env) :=
  parallel_bind parallel_pop fun v => parallel_bind parallel_pop fun holder =>
    parallel_bind parallel_pop fun key => parallel_bind (parallel_setProperty env holder key v)
      fun _ => parallel_push v

/-- What takes two operands and gives a value. -/
theorem parallel_twoOperands {f f' : Value → Value → Work W Value}
    (h : ∀ a b, M.Parallel M.value (f a b) (f' (M.value a) (M.value b))) :
    M.Parallel (fun u => u)
      (do
        let b ← pop
        let a ← pop
        push (← f a b))
      (do
        let b ← pop
        let a ← pop
        push (← f' a b)) :=
  parallel_bind parallel_pop fun b => parallel_bind parallel_pop fun a =>
    parallel_bind (h a b) parallel_push

theorem parallel_operate (env : Embedding W) (op : Code.Operator) :
    M.Parallel (fun u => u) (operate env op) (operate env op) := by
  have hsame (a b : Value) : M.Parallel (W := W) (fun same => same)
      (inspect fun m => .ok (m.heap.strictEquals a b))
      (inspect fun m => .ok (m.heap.strictEquals (M.value a) (M.value b))) :=
    parallel_inspect fun m => congrArg Except.ok (M.functions.strictEquals_heap m.heap a b)
  cases op with
  | add | sub | mul | div | rem | shl | shr | ushr | bitAnd | bitOr | bitXor =>
    exact parallel_twoOperands fun a b => parallel_binary _ a b
  | lt | le | gt | ge =>
    refine parallel_bind parallel_pop fun b => parallel_bind parallel_pop fun a => ?_
    rw [Move.toNumber_value, Move.toNumber_value]
    exact parallel_push _
  | eq => exact parallel_throw _ _
  | ne => exact parallel_throw _ _
  | strictEq =>
    exact parallel_bind parallel_pop fun b => parallel_bind parallel_pop fun a =>
      parallel_bind (hsame a b) fun same => parallel_push (.boolean same)
  | strictNe =>
    exact parallel_bind parallel_pop fun b => parallel_bind parallel_pop fun a =>
      parallel_bind (hsame a b) fun same => parallel_push (.boolean !same)
  | not | bitNot | neg | pos | typeOf =>
    exact parallel_bind parallel_pop fun v => parallel_bind (parallel_unary _ v) parallel_push
  | assign => exact parallel_assign env
  | addAssign | subAssign | mulAssign | divAssign | remAssign | shlAssign | shrAssign | ushrAssign
  | bitAndAssign | bitOrAssign | bitXorAssign => exact parallel_compoundAssign env _
  | preInc | preDec | postInc | postDec => exact parallel_step env _ _ _

end Machine

end ScriptEngine
