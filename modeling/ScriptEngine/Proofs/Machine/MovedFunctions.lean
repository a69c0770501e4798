import ScriptEngine.Proofs.Machine.MovedCalls
/-!
Collections and the functions of every machine over other code.
-/

namespace ScriptEngine

namespace Move

variable {W : Type} (M : Move)

/-! ## Collections -/

theorem toList_map (c : Ffi.Callbacks) (f : Value → Value) :
    (c.map f).toList = c.toList.map fun r => ⟨f r.func, f r.userdata, r.signature⟩ := by
  simp only [Ffi.Callbacks.toList, Ffi.Callbacks.map, Array.toList_map, List.filterMap_map, List.map_filterMap]
  rfl

theorem heldValues_machine (m : Machine W) :
    (M.machine m).heldValues = m.heldValues.map M.value := by
  have hroots : (m.roots.map M.value).values = m.roots.values.map M.value := by
    simp only [Roots.values, Roots.map, Array.toList_map, List.filterMap_map, List.map_filterMap]
    rfl
  have hcallbacks : (m.callbacks.map M.value).values = m.callbacks.values.map M.value := by
    simp [Ffi.Callbacks.values, toList_map, List.flatMap_map, List.map_flatMap]
  simp [Machine.heldValues, Move.machine, hroots, hcallbacks, Function.comp_def, Move.frame, Move.pending]

theorem relocate_value (moves : StringHeap.Relocation) (v : Value) :
    StringHeap.relocate moves (M.value v) = M.value (StringHeap.relocate moves v) :=
  M.functions.relocate_value moves v

theorem mapHeld_machine (moves : StringHeap.Relocation) (m : Machine W) :
    (M.machine m).mapHeld (StringHeap.relocate moves) = M.machine (m.mapHeld (StringHeap.relocate moves)) := by
  simp [Machine.mapHeld, Move.machine, Move.frame, Move.pending, Roots.map, Ffi.Callbacks.map,
    Function.comp_def, M.relocate_value moves]

theorem collect_machine (m : Machine W) (full : Bool) :
    (M.machine m).collect full = (M.machine (m.collect full).1, (m.collect full).2) := by
  have hcollect : (M.machine m).heap.collect (M.machine m).heldValues full (M.machine m).options.stringSlack
      = (M.functions.heap (m.heap.collect m.heldValues full m.options.stringSlack).1,
        (m.heap.collect m.heldValues full m.options.stringSlack).2) := by
    rw [heldValues_machine]
    exact M.functions.collect_heap m.heap m.heldValues full m.options.stringSlack
  unfold Machine.collect
  rw [hcollect]
  generalize m.heap.collect m.heldValues full m.options.stringSlack = collected
  simp only
  split
  · rfl
  · exact congrArg (fun machine => (machine, collected.2.2))
      (M.mapHeld_machine collected.2.1 { m with heap := collected.1 })

theorem collectIfNeeded_machine (m : Machine W) :
    (M.machine m).collectIfNeeded = M.machine m.collectIfNeeded := by
  unfold Machine.collectIfNeeded
  show (if m.heap.needsCollection && m.nativeCalls == 0 then _ else _) = _
  split
  · rw [collect_machine]
  · rfl

end Move

namespace Machine

variable {W α β γ δ : Type} {M : Move}

/-! ## Arguments -/

theorem arg_map (args : List Value) (i : Nat) : arg (args.map M.value) i = M.value (arg args i) := by
  unfold arg
  rw [List.getElem?_map]
  cases args[i]? <;> rfl

theorem textArg_value (h : Heap) (args : List Value) (i : Nat) (function : String) :
    textArg (M.functions.heap h) (args.map M.value) i function = textArg h args i function := by
  unfold textArg
  rw [arg_map, Move.typeName_value, Move.value, Renaming.text?_heap]

theorem sizeArg_value (args : List Value) (i : Nat) (what : String) :
    sizeArg (args.map M.value) i what = sizeArg args i what := by
  unfold sizeArg
  rw [arg_map]
  cases arg args i <;> rfl

theorem indexArg?_value (args : List Value) (i : Nat) (name : String) :
    indexArg? (args.map M.value) i name = indexArg? args i name := by
  unfold indexArg?
  rw [List.getElem?_map]
  cases args[i]? with
  | none => rfl
  | some v => cases v <;> rfl

theorem indexArg_value (args : List Value) (i : Nat) (name : String) :
    indexArg (args.map M.value) i name = indexArg args i name := by
  unfold indexArg
  rw [indexArg?_value]

theorem receiverString_value (receiver : Value) :
    receiverString (M.value receiver) = receiverString receiver := by
  cases receiver <;> rfl

/-! ## Functions -/

theorem parallel_die (args : List Value) :
    M.Parallel (W := W) M.value (die args) (die (args.map M.value)) := by
  refine parallel_bind (k := fun bytes => bytes) (parallel_inspect fun m => ?_) fun bytes =>
    parallel_throw _ _
  rw [arg_map, Move.heap_machine, Move.value, Renaming.textOf_heap]
  cases m.heap.textOf (arg args 0) <;> rfl

theorem parallel_collectNow (args : List Value) :
    M.Parallel (W := W) M.value (collectNow args) (collectNow (args.map M.value)) := by
  intro m
  have hcollect : (M.machine m).collect ((M.machine m).heap.truthy (arg (args.map M.value) 0))
      = (M.machine (m.collect (m.heap.truthy (arg args 0))).1, (m.collect (m.heap.truthy (arg args 0))).2) := by
    rw [arg_map, truthy_machine, Move.collect_machine]
  show EStateM.Result.ok Value.undefined
      ((M.machine m).collect ((M.machine m).heap.truthy (arg (args.map M.value) 0))).1 = _
  rw [hcollect]
  rfl

theorem parallel_resolveForeign (env : Embedding W) (text : String) :
    M.Parallel M.value (resolveForeign env text) (resolveForeign env text) := by
  have hsame {κ : Type} (x : Except Error κ) : M.Parallel (W := W) (fun a => a) (ofExcept x) (ofExcept x) := by
    intro m
    cases x <;> rfl
  refine parallel_bind (hsame _) fun signature => parallel_bind (hsame _) fun host => ?_
  cases host.resolve signature.name with
  | none => exact parallel_throw _ _
  | some target => exact parallel_alloc fun heap => M.functions.newSignature_heap heap _

theorem parallel_ffi (env : Embedding W) (args : List Value) :
    M.Parallel M.value (ffi env args) (ffi env (args.map M.value)) := by
  refine parallel_bind (k := fun text => text) (parallel_inspect fun m => ?_) fun text =>
    parallel_resolveForeign env text
  rw [Move.heap_machine, textArg_value]
  cases textArg m.heap args 0 "ffi" <;> rfl

theorem slotOf?_map (c : Ffi.Callbacks) (func userdata : Value) :
    (c.map M.value).slotOf? (M.value func) (M.value userdata) = c.slotOf? func userdata := by
  have hholds (slot : Option Ffi.Registration) :
      Ffi.Callbacks.holds (M.value func) (M.value userdata)
        (slot.map fun r => ⟨M.value r.func, M.value r.userdata, r.signature⟩)
      = Ffi.Callbacks.holds func userdata slot := by
    cases slot with
    | none => rfl
    | some r => simp [Ffi.Callbacks.holds, Move.value]
  simp [Ffi.Callbacks.slotOf?, Ffi.Callbacks.map, Array.findIdx?_map, Function.comp_def, hholds]

theorem remove_map (c : Ffi.Callbacks) (func userdata : Value) :
    (c.map M.value).remove (M.value func) (M.value userdata)
      = ((c.remove func userdata).1.map M.value, (c.remove func userdata).2) := by
  unfold Ffi.Callbacks.remove
  rw [slotOf?_map]
  cases c.slotOf? func userdata with
  | none => rfl
  | some i => simp [Ffi.Callbacks.map, Array.map_setIfInBounds]

theorem register_map (c : Ffi.Callbacks) (r : Ffi.Registration) :
    (c.map M.value).register ⟨M.value r.func, M.value r.userdata, r.signature⟩
      = ((c.register r).1.map M.value, (c.register r).2) := by
  have hvacant : (c.map M.value).slots.findIdx? Option.isNone = c.slots.findIdx? Option.isNone := by
    simp [Ffi.Callbacks.map, Array.findIdx?_map, Function.comp_def]
  unfold Ffi.Callbacks.register
  rw [slotOf?_map, hvacant]
  cases c.slotOf? r.func r.userdata with
  | some i => rfl
  | none =>
    cases c.slots.findIdx? Option.isNone with
    | some i => simp [Ffi.Callbacks.map, Array.map_setIfInBounds]
    | none => simp [Ffi.Callbacks.map]

theorem parallel_freeCallback (args : List Value) :
    M.Parallel (W := W) M.value (freeCallback args) (freeCallback (args.map M.value)) := by
  refine parallel_modifyGet fun m => ?_
  have hremove : (M.machine m).callbacks.remove (arg (args.map M.value) 0) (arg (args.map M.value) 1)
      = ((m.callbacks.remove (arg args 0) (arg args 1)).1.map M.value,
        (m.callbacks.remove (arg args 0) (arg args 1)).2) := by
    rw [arg_map, arg_map]
    exact remove_map m.callbacks _ _
  simp only [hremove]
  rfl

theorem parallel_newBuffer (args : List Value) :
    M.Parallel (W := W) M.value (newBuffer args) (newBuffer (args.map M.value)) := by
  unfold newBuffer
  rw [sizeArg_value]
  refine parallel_bind (k := fun length => length) ?_ fun length =>
    parallel_alloc fun heap => M.functions.newBuffer_heap heap _
  intro m
  cases sizeArg args 0 "length" <;> rfl

theorem viewRange_value (args : List Value) (size : Nat) :
    viewRange (args.map M.value) size = viewRange args size := by
  unfold viewRange
  rw [sizeArg_value, sizeArg_value]

theorem parallel_newView (args : List Value) :
    M.Parallel (W := W) M.value (newView args) (newView (args.map M.value)) := by
  unfold newView
  rw [arg_map]
  cases arg args 0 with
  | arrayBuffer id =>
    refine parallel_bind (k := fun bytes => bytes) (parallel_inspect fun m => ?_) fun bytes => ?_
    · rw [Move.heap_machine, Renaming.buffer_heap]
      cases m.heap.buffer id <;> rfl
    · rw [viewRange_value]
      refine parallel_bind (k := fun range => range) ?_ fun range =>
        parallel_alloc fun heap => M.functions.newView_heap heap id _ _
      intro m
      cases viewRange args bytes.size <;> rfl
  | _ => exact parallel_throw _ _

theorem parallel_pushItems (receiver : Value) (args : List Value) :
    M.Parallel (W := W) M.value (pushItems receiver args) (pushItems (M.value receiver) (args.map M.value)) := by
  cases receiver with
  | array id =>
    refine parallel_bind (k := fun u => u)
      (parallel_onHeap fun heap => M.functions.modifyItems_heap heap (fun items => ?_) id) fun _ => ?_
    · simp only [Array.map_append, List.map_toArray]
      rfl
    · refine parallel_bind (k := Array.map M.value) (parallel_inspect fun m => ?_) fun items => ?_
      · rw [Move.heap_machine, Renaming.items_heap]
        cases m.heap.items id <;> rfl
      · rw [Array.size_map]
        exact parallel_pure M.value _
  | _ => exact parallel_throw _ _

theorem charCodeAt_value (h : Heap) (receiver : Value) (args : List Value) :
    charCodeAt (M.functions.heap h) (M.value receiver) (args.map M.value)
      = (charCodeAt h receiver args).map M.value := by
  unfold charCodeAt
  rw [receiverString_value, indexArg_value]
  cases receiverString receiver with
  | error e => rfl
  | ok s =>
    cases indexArg args 0 "index" with
    | error e => rfl
    | ok index =>
      simp only [bind, Except.bind, Renaming.strings_heap]
      have hplace (place : Int) : (if place < 0 then pure .undefined
            else pure ((h.strings.byte? s place.toNat).elim .undefined byteValue) : Except Error Value)
          = (if place < 0 then pure .undefined
            else pure ((h.strings.byte? s place.toNat).elim .undefined byteValue) : Except Error Value).map
              M.value := by
        by_cases h0 : place < 0
        · simp [h0, pure, Except.pure, Except.map]
        · simp only [h0, if_false, pure, Except.pure, Except.map]
          cases h.strings.byte? s place.toNat <;> rfl
      exact hplace _

theorem indexOf_value (h : Heap) (receiver : Value) (args : List Value) :
    indexOf (M.functions.heap h) (M.value receiver) (args.map M.value)
      = (indexOf h receiver args).map M.value := by
  unfold indexOf
  rw [receiverString_value, List.getElem?_map, indexArg?_value]
  cases receiverString receiver with
  | error e => rfl
  | ok s =>
    cases args[0]? with
    | none => rfl
    | some v =>
      simp only [bind, Except.bind, Option.map_some, Move.value, Renaming.text?_heap, Renaming.typeName_value,
        Renaming.strings_heap]
      cases h.text? v with
      | none => rfl
      | some needle =>
        cases indexArg? args 1 "fromIndex" with
        | error e => rfl
        | ok from? =>
          simp only [pure, Except.pure]
          split <;> rfl

theorem sliceOf_value (h : Heap) (receiver : Value) (args : List Value) :
    sliceOf (M.functions.heap h) (M.value receiver) (args.map M.value) = sliceOf h receiver args := by
  unfold sliceOf
  rw [receiverString_value, indexArg_value, indexArg?_value]
  rfl

theorem parallel_slice (receiver : Value) (args : List Value) :
    M.Parallel (W := W) M.value (slice receiver args) (slice (M.value receiver) (args.map M.value)) := by
  refine parallel_bind (k := fun bytes => bytes) (parallel_inspect fun m => ?_) parallel_allocString
  rw [Move.heap_machine, sliceOf_value]
  cases sliceOf m.heap receiver args <;> rfl

theorem parallel_toText (receiver : Value) :
    M.Parallel (W := W) M.value (toText receiver) (toText (M.value receiver)) := by
  refine parallel_bind (k := fun bytes => bytes) (parallel_inspect fun m => ?_) parallel_allocString
  rw [Move.heap_machine, Move.value, Renaming.textOf_heap]
  cases m.heap.textOf receiver <;> rfl

theorem argumentsOf_machine (m : Machine W) (args : Value) :
    (M.machine m).argumentsOf (M.value args) = (m.argumentsOf args).map (List.map M.value) := by
  cases args with
  | array id =>
    show ((M.functions.heap m.heap).items id).map Array.toList = ((m.heap.items id).map _).map _
    rw [Renaming.items_heap]
    cases m.heap.items id with
    | error e => rfl
    | ok items => simp [Except.map, Move.value]
  | _ => rfl

/-! ## Native code -/

theorem marshalFrom_value (h : Heap) (f : Ffi.ForeignFunction) (i : Nat) (types : List Ffi.CType)
    (args : List Value) :
    marshalFrom (M.functions.heap h) f i types (args.map M.value) = marshalFrom h f i types args := by
  induction types generalizing i args with
  | nil => cases args <;> rfl
  | cons type types ih =>
    cases args with
    | nil => rfl
    | cons v args =>
      have hvalue (type : Ffi.CType) : Ffi.Arg.ofValue (M.functions.heap h) f.trampoline
          f.signature.callback.isSome i type (M.value v)
          = Ffi.Arg.ofValue h f.trampoline f.signature.callback.isSome i type v :=
        M.functions.ofValue_heap h _ _ _ _ _
      simp only [List.map_cons, marshalFrom, hvalue, ih]

theorem marshal_value (h : Heap) (f : Ffi.ForeignFunction) (args : List Value) :
    marshal (M.functions.heap h) f (args.map M.value) = marshal h f args := by
  unfold marshal
  simp only [List.length_map, marshalFrom_value]

theorem registerFrom_map (c : Ffi.Callbacks) (func : Value) (callback : Ffi.Signature) (types : List Ffi.CType)
    (vs : List Value) (args : List Ffi.Arg) :
    registerFrom (c.map M.value) (M.value func) callback types (vs.map M.value) args
      = ((registerFrom c func callback types vs args).1.map M.value,
        (registerFrom c func callback types vs args).2) := by
  induction types generalizing c vs args with
  | nil => cases vs <;> cases args <;> rfl
  | cons type types ih =>
    cases vs with
    | nil => cases args <;> rfl
    | cons v vs =>
      cases args with
      | nil => rfl
      | cons arg args =>
        simp only [List.map_cons, registerFrom]
        split
        · have hregister := register_map (M := M) c ⟨func, v, callback⟩
          simp only at hregister
          simp only [hregister, ih]
        · simp only [ih]

theorem register_value (c : Ffi.Callbacks) (s : Ffi.Signature) (args : List Value)
    (marshaled : List Ffi.Arg) :
    register (c.map M.value) s (args.map M.value) marshaled
      = ((register c s args marshaled).1.map M.value, (register c s args marshaled).2) := by
  unfold register
  cases s.callback with
  | none => rfl
  | some callback =>
    have hfunc : ((s.callbackIndex?.bind fun i => (args.map M.value)[i]?).getD .undefined)
        = M.value ((s.callbackIndex?.bind fun i => args[i]?).getD .undefined) := by
      cases s.callbackIndex? with
      | none => rfl
      | some i =>
        simp only [Option.bind_some, List.getElem?_map]
        cases args[i]? <;> rfl
    simp only [hfunc, registerFrom_map]

theorem parallel_acceptCall (env : Embedding W) (id : SignatureId) (args : List Value) :
    M.Parallel (fun call => call) (acceptCall env id args) (acceptCall env id (args.map M.value)) := by
  refine parallel_bind (k := fun f => f) (parallel_inspect fun m => ?_) fun f =>
    parallel_bind (k := fun marshaled => marshaled) (parallel_inspect fun m => ?_) fun marshaled =>
      parallel_bind (k := fun host => host) ?_ fun host =>
        parallel_bind (k := fun marshaled => marshaled) (parallel_modifyGet fun m => ?_) fun marshaled =>
          parallel_pure _ _
  · rw [Move.heap_machine, Renaming.foreignFunction_heap]
    cases m.heap.foreignFunction id <;> rfl
  · rw [Move.heap_machine, marshal_value]
    cases (marshal m.heap f args).mapError _ <;> rfl
  · intro m
    cases env.requireHost <;> rfl
  · have hregister : register (M.machine m).callbacks f.signature (args.map M.value) marshaled = _ :=
      register_value m.callbacks f.signature args marshaled
    simp only [hregister]
    rfl

theorem parallel_toValue (type : Ffi.CType) (arg : Ffi.Arg) :
    M.Parallel (W := W) M.value (onHeap fun h => Ffi.Arg.toValue h type arg)
      (onHeap fun h => Ffi.Arg.toValue h type arg) :=
  parallel_onHeap fun heap => M.functions.toValue_heap heap type arg

end Machine

end ScriptEngine
