import ScriptEngine.Proofs.Machine.Moving
/-!
Calls, scopes, loops and the functions of every machine over other code.

Where a run goes on is an offset or a place, and these differ over other code; `Move.flow` says how.
-/

namespace ScriptEngine

/-- Whether an instruction goes on behind itself and holds neither a distance nor an offset. -/
def Code.Instr.isStraight : Code.Instr → Bool
  | .jmp _ | .jmpTrue _ | .jmpFalse _ | .jmpNeutralTrue _ | .jmpNeutralFalse _ | .pushFunc _ | .call
  | .return | .loop _ _ | .break | .continue | .header => false
  | _ => true

namespace Move

variable (M : Move)

/-- The offset that a function starts at, over other code. -/
def entry (offset : Nat) : Nat :=
  if h : offset < payloadSize then (M.functions.offset ⟨offset, h⟩).val else offset

theorem entry_val (start : Payload) : M.entry start.val = (M.functions.offset start).val := by
  simp [entry, start.isLt]

/-- Where a run goes on over other code, with its offsets and its places changed. -/
def flow (offset place : Nat → Nat) : Flow → Flow
  | .goOn pos => .goOn (place pos)
  | .jump o => .jump (offset o)
  | .finish v => .finish (M.value v)
  | .host callee receiver args slot pos =>
    .host (M.value callee) (M.value receiver) (args.map M.value) slot (place pos)

end Move

namespace Machine

variable {W α β γ δ : Type} {M : Move}

/-! ## Calls -/

theorem parallel_beginArgs (previous : Code.Op) :
    M.Parallel (W := W) (fun u => u) (beginArgs previous) (beginArgs previous) := by
  intro m
  unfold beginArgs
  have hempty : (M.machine m).stack.isEmpty = m.stack.isEmpty := by simp [Array.isEmpty]
  rw [hempty]
  cases m.stack.isEmpty with
  | true =>
    simp only [if_true]
    split <;> rfl
  | false =>
    simp only [Bool.false_eq_true, if_false]
    split <;> simp [Move.machine, Move.result, Move.pending]

theorem parallel_takePending : M.Parallel (W := W) M.pending takePending takePending := by
  intro m
  unfold takePending
  have hback : (M.machine m).pending.back? = m.pending.back?.map M.pending := back?_map _ _
  rw [hback]
  cases m.pending.back? with
  | none => rfl
  | some call => simp [Move.machine, Move.result]

theorem getElem?_stack_machine (m : Machine W) (slot : Nat) :
    (M.machine m).stack[slot]? = m.stack[slot]?.map M.value := by
  simp

theorem pushFrame_machine (m : Machine W) (site : Option Nat) (slot : Nat) (receiver : Value) :
    (M.machine m).pushFrame (site.map M.site) slot (M.value receiver)
      = M.machine (m.pushFrame site slot receiver) := by
  simp [pushFrame, Move.machine, Move.frame]

theorem parallel_callPending (site pos : Nat) (place : Nat → Nat) :
    M.Parallel (W := W) (M.flow M.entry place) (callPending site pos)
      (callPending (M.site site) (place pos)) := by
  refine parallel_bind parallel_takePending fun call => parallel_bind (k := M.value)
    (parallel_inspect fun m => ?_) fun callee => ?_
  · simp only [getElem?_stack_machine, Move.pending]
    cases m.stack[call.calleeSlot]? <;> rfl
  · have hhost : M.Parallel (W := W) (M.flow M.entry place)
        (do
          let args ← modifyGet fun m : Machine W =>
            ((m.stack.drop (call.calleeSlot + 1)).toList,
              m.pushFrame (some site) call.calleeSlot call.receiver)
          return .host callee call.receiver args call.calleeSlot pos)
        (do
          let args ← modifyGet fun m : Machine W =>
            ((m.stack.drop (call.calleeSlot + 1)).toList,
              m.pushFrame (some (M.site site)) call.calleeSlot (M.value call.receiver))
          return .host (M.value callee) (M.value call.receiver) args call.calleeSlot (place pos)) := by
      refine parallel_bind (k := List.map M.value) (parallel_modifyGet fun m => ?_) fun args =>
        parallel_pure _ (Flow.host callee call.receiver args call.calleeSlot pos)
      refine Prod.ext ?_ (pushFrame_machine m (some site) _ _)
      simp [Array.drop]
    cases callee with
    | function start =>
      refine parallel_bind (k := fun u => u) (parallel_modify fun m => ?_) fun _ => ?_
      · simp [pushFrame, Move.machine, Move.frame, Move.pending, Array.map_setIfInBounds]
      · have hpure := parallel_pure (W := W) (M := M) (M.flow M.entry place) (Flow.jump start.val)
        simp only [Move.flow, Move.entry_val] at hpure
        exact hpure
    | native id => exact hhost
    | signature id => exact hhost
    | _ => exact parallel_throw _ _

theorem leaveHost_machine (m : Machine W) : (M.machine m).leaveHost = M.machine m.leaveHost := by
  unfold leaveHost
  have hback : (M.machine m).frames.back? = m.frames.back?.map M.frame := back?_map _ _
  rw [hback]
  cases m.frames.back? with
  | none => rfl
  | some frame => simp [Move.machine, Move.frame]

theorem putResult_machine (m : Machine W) (slot : Nat) (v : Value) :
    (M.machine m).putResult slot (M.value v) = M.machine (m.putResult slot v) := by
  simp [putResult, Move.machine, Array.map_setIfInBounds]

/-- The place behind a call instruction is that behind it over other code. -/
theorem parallel_returnFromCall (place : Nat → Nat) :
    M.Parallel (W := W) (M.flow (fun o => M.site (o - 1) + 1) place) returnFromCall returnFromCall := by
  refine parallel_bind (k := M.frame) ?_ fun frame => ?_
  · intro m
    have hback : (M.machine m).frames.back? = m.frames.back?.map M.frame := back?_map _ _
    simp only [hback]
    cases m.frames.back? with
    | none => rfl
    | some frame => simp [Move.machine, Move.result]
  · refine parallel_bind (k := fun u => u) (parallel_modify fun m => ?_) fun _ => ?_
    · simp [Move.machine, Move.frame]
    · simp only [Move.frame]
      cases frame.callSite with
      | none => exact parallel_bind parallel_pop fun v => parallel_pure _ (Flow.finish v)
      | some site => exact parallel_pure _ (Flow.jump (site + 1))

theorem topFrame?_machine (m : Machine W) : (M.machine m).topFrame? = m.topFrame?.map M.frame :=
  back?_map _ _

theorem parallel_setResult (v : Value) :
    M.Parallel (W := W) (fun u => u) (setResult v) (setResult (M.value v)) := by
  intro m
  unfold setResult
  rw [topFrame?_machine]
  cases m.topFrame? with
  | none => rfl
  | some frame =>
    simp only [Option.map_some, Move.frame, Move.stack_machine, Array.size_map]
    split
    · simp [Move.machine, Move.result, Array.map_setIfInBounds]
    · rfl

theorem parallel_argument (index : Nat) :
    M.Parallel (W := W) M.value (argument index) (argument index) := by
  refine parallel_inspect fun m => ?_
  rw [topFrame?_machine]
  cases m.topFrame? with
  | none => rfl
  | some frame =>
    simp only [Option.map_some, Move.frame, getElem?_stack_machine]
    cases m.stack[frame.resultSlot + 1 + index]? <;> rfl

/-! ## Scopes and loops -/

theorem parallel_openScope : M.Parallel (W := W) (fun u => u) openScope openScope := by
  refine parallel_bind parallel_newObject fun scope => parallel_modify fun m => ?_
  simp [Move.machine]

theorem parallel_closeScope : M.Parallel (W := W) (fun u => u) closeScope closeScope := by
  intro m
  unfold closeScope
  simp only [Move.scopes_machine, Array.size_map]
  split
  · rfl
  · simp [Move.machine, Move.result]

theorem parallel_declare (holder key : Value) :
    M.Parallel (W := W) (fun u => u) (declare holder key) (declare (M.value holder) (M.value key)) := by
  unfold declare
  rw [Move.propertyHolder?_value, Move.typeName_value]
  cases holder.propertyHolder? with
  | none => exact parallel_throw _ _
  | some id =>
    refine parallel_bind (k := Option.map M.value) (parallel_inspect fun m => ?_) fun known => ?_
    · simp only [Move.heap_machine, Move.value, Renaming.keyBytes_heap, Renaming.getOwn_heap]
      cases m.heap.keyBytes key with
      | error e => rfl
      | ok name => rfl
    · rw [Option.isNone_map]
      split
      · exact parallel_setOwn id key .undefined
      · exact parallel_pure _ ()

theorem parallel_openLoop (breakTarget continueTarget : Nat) :
    M.Parallel (W := W) (fun u => u) (openLoop breakTarget continueTarget)
      (openLoop (M.target breakTarget) (M.target continueTarget)) := by
  refine parallel_modify fun m => ?_
  simp [Move.machine, Move.loop]

theorem parallel_currentLoop (word : String) :
    M.Parallel (W := W) M.loop (currentLoop word) (currentLoop word) := by
  refine parallel_inspect fun m => ?_
  have hback : (M.machine m).loops.back? = m.loops.back?.map M.loop := back?_map _ _
  have hsize : (M.machine m).loops.size = m.loops.size := by simp [Move.machine]
  have hframe : ((M.machine m).topFrame?.map Frame.loops).getD 0 = (m.topFrame?.map Frame.loops).getD 0 := by
    rw [topFrame?_machine]
    cases m.topFrame? <;> rfl
  rw [hback, hsize, hframe]
  split
  · rfl
  · cases m.loops.back? <;> rfl

theorem parallel_breakLoop (place : Nat → Nat) :
    M.Parallel (W := W) (M.flow M.target place) breakLoop breakLoop := by
  refine parallel_bind (parallel_currentLoop _) fun loop => parallel_bind (k := fun u => u)
    (parallel_modify fun m => ?_) fun _ => parallel_pure _ (Flow.jump loop.breakTarget)
  simp [Move.machine, Move.loop]

theorem parallel_continueLoop (place : Nat → Nat) :
    M.Parallel (W := W) (M.flow M.target place) continueLoop continueLoop := by
  refine parallel_bind (parallel_currentLoop _) fun loop => parallel_bind (k := fun u => u)
    (parallel_modify fun m => ?_) fun _ => parallel_pure _ (Flow.jump loop.continueTarget)
  simp [Move.machine, Move.loop]

theorem parallel_findScope (name : Value) :
    M.Parallel (W := W) M.value (inspect fun m => m.findScope name)
      (inspect fun m => m.findScope (M.value name)) :=
  parallel_inspect fun m => findScope_machine m name

theorem parallel_walk (env : Embedding W) : M.Parallel (fun u => u) (walk env) (walk env) := by
  refine parallel_bind (parallel_peek 0) fun number => parallel_bind (parallel_peek 1) fun holder =>
    parallel_bind (parallel_peek 2) fun name => ?_
  rw [Move.asNumber?_value]
  refine parallel_bind (k := Option.map M.value) (parallel_inspect fun m => walkKey_machine m _ _)
    fun key => ?_
  cases key with
  | none => exact parallel_replaceTop .undefined
  | some key =>
    exact parallel_bind (parallel_findScope name) fun scope =>
      parallel_bind (parallel_setProperty env scope name key) fun _ => parallel_replaceTop _

/-! ## Instructions -/

theorem parallel_lookUp (env : Embedding W) (previous : Code.Op) :
    M.Parallel (fun u => u) (lookUp env previous) (lookUp env previous) := by
  refine parallel_bind parallel_pop fun holder => parallel_bind parallel_pop fun key =>
    parallel_bind (parallel_property env holder key) fun v => parallel_bind (parallel_push v) fun _ =>
      parallel_modify fun m => ?_
  split <;> rfl

theorem parallel_append : M.Parallel (W := W) (fun u => u) append append := by
  refine parallel_bind parallel_pop fun v => parallel_bind parallel_pop fun target => ?_
  cases target with
  | array id =>
    refine parallel_onHeap fun heap => M.functions.modifyItems_heap heap (fun items => ?_) id
    exact (Array.map_push ..).symm
  | _ => exact parallel_throw _ _

theorem parallel_setArgument (env : Embedding W) (index : Nat) (name : List UInt8) :
    M.Parallel (fun u => u) (setArgument env index name) (setArgument env index name) :=
  parallel_bind (parallel_allocString name) fun key => parallel_bind (parallel_argument index) fun v =>
    parallel_bind parallel_topScope fun scope => parallel_setProperty env scope key v

/-- A jump taken on a condition, over other code. -/
theorem parallel_jumpIf (offset place : Nat → Nat) (wanted : Bool) {pos distance distance' : Nat}
    (hdistance : place (pos + distance) = place pos + distance') :
    M.Parallel (W := W) (M.flow offset place) (jumpIf wanted pos distance)
      (jumpIf wanted (place pos) distance') := by
  refine parallel_bind parallel_pop fun v => parallel_bind (parallel_truthy v) fun holds => ?_
  split
  · refine parallel_bind (parallel_push .undefined) fun _ => ?_
    have hpure := parallel_pure (W := W) (M := M) (M.flow offset place) (Flow.goOn (pos + distance))
    simp only [Move.flow, hdistance] at hpure
    exact hpure
  · exact parallel_pure _ (Flow.goOn pos)

theorem parallel_jumpKeeping (offset place : Nat → Nat) (wanted : Bool)
    {pos distance distance' : Nat} (hdistance : place (pos + distance) = place pos + distance') :
    M.Parallel (W := W) (M.flow offset place) (jumpKeeping wanted pos distance)
      (jumpKeeping wanted (place pos) distance') := by
  refine parallel_bind (parallel_peek 0) fun v => parallel_bind (parallel_truthy v) fun holds => ?_
  have hpure := parallel_pure (W := W) (M := M) (M.flow offset place)
    (Flow.goOn (if holds = wanted then pos + distance else pos))
  have hplace : place (if holds = wanted then pos + distance else pos)
      = if holds = wanted then place pos + distance' else place pos := by
    split
    · exact hdistance
    · rfl
  simp only [Move.flow, hplace] at hpure
  exact hpure

theorem parallel_carryOut (env : Embedding W) {c c' : Cursor} (hprevious : c'.previous = c.previous)
    {i : Code.Instr} (hi : i.isStraight = true) (offset place : Nat → Nat) (firstEnd firstEnd' next : Nat) :
    M.Parallel (M.flow offset place) (carryOut env c i firstEnd next)
      (carryOut env c' i firstEnd' (place next)) := by
  have hnext : M.Parallel (W := W) (M.flow offset place) (pure (Flow.goOn next))
      (pure (Flow.goOn (place next))) := parallel_pure _ (Flow.goOn next)
  cases i with
  | nop => exact hnext
  | drop => exact parallel_bind parallel_pop fun _ => hnext
  | dup => exact parallel_bind (parallel_peek 0) fun v => parallel_bind (parallel_push v) fun _ => hnext
  | dup2 =>
    exact parallel_bind (parallel_peek 1) fun a => parallel_bind (parallel_peek 0) fun b =>
      parallel_bind (parallel_push a) fun _ => parallel_bind (parallel_push b) fun _ => hnext
  | swap => exact parallel_bind parallel_swapTop fun _ => hnext
  | findScope =>
    exact parallel_bind (parallel_peek 0) fun name => parallel_bind (parallel_findScope name) fun v =>
      parallel_bind (parallel_push v) fun _ => hnext
  | pushScope => exact parallel_bind parallel_topScope fun v => parallel_bind (parallel_push v) fun _ => hnext
  | pushStr text =>
    exact parallel_bind (parallel_allocString text) fun v => parallel_bind (parallel_push v) fun _ => hnext
  | pushTrue => exact parallel_bind (parallel_push (.boolean true)) fun _ => hnext
  | pushFalse => exact parallel_bind (parallel_push (.boolean false)) fun _ => hnext
  | pushNull => exact parallel_bind (parallel_push .null) fun _ => hnext
  | pushUndef => exact parallel_bind (parallel_push .undefined) fun _ => hnext
  | pushInt n => exact parallel_bind (parallel_push (.ofNat n)) fun _ => hnext
  | pushDbl bits => exact parallel_bind (parallel_push (.number (.ofBits bits))) fun _ => hnext
  | pushObj => exact parallel_bind parallel_newObject fun v => parallel_bind (parallel_push v) fun _ => hnext
  | pushArray =>
    exact parallel_bind (parallel_alloc fun heap => M.functions.newArray_heap heap []) fun v =>
      parallel_bind (parallel_push v) fun _ => hnext
  | pushThis =>
    exact parallel_bind (k := M.value) (parallel_inspect fun m => rfl) fun v =>
      parallel_bind (parallel_push v) fun _ => hnext
  | get =>
    simp only [carryOut, hprevious]
    exact parallel_bind (parallel_lookUp env _) fun _ => hnext
  | create =>
    exact parallel_bind parallel_pop fun holder => parallel_bind parallel_pop fun key =>
      parallel_bind (parallel_declare holder key) fun _ => hnext
  | expr op => exact parallel_bind (parallel_operate env op) fun _ => hnext
  | append => exact parallel_bind parallel_append fun _ => hnext
  | setArg index name => exact parallel_bind (parallel_setArgument env index name) fun _ => hnext
  | newScope => exact parallel_bind parallel_openScope fun _ => hnext
  | delScope => exact parallel_bind parallel_closeScope fun _ => hnext
  | args =>
    simp only [carryOut, hprevious]
    exact parallel_bind (parallel_beginArgs _) fun _ => hnext
  | setRetVal =>
    exact parallel_bind parallel_pop fun v => parallel_bind (parallel_setResult v) fun _ => hnext
  | exit => exact parallel_bind parallel_pop fun v => parallel_pure _ (Flow.finish v)
  | forInNext => exact parallel_bind (parallel_walk env) fun _ => hnext
  | _ => cases hi

end Machine

end ScriptEngine
