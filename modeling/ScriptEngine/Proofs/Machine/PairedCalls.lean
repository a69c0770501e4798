import ScriptEngine.Proofs.Machine.PairedOperations
import ScriptEngine.Proofs.Machine.TwinSteps
/-!
Instructions on machines that hold the same.

Calls, scopes, loops and walks do the same on paired machines, and so does every instruction
(`alike_advance`). All but calls and returns leave the frames alone (`calm_carryOut`).
-/

namespace ScriptEngine

/-- Whether an instruction enters or leaves a call. -/
def Code.Instr.isCall : Code.Instr → Bool
  | .call | .return => true
  | _ => false

namespace Pairing

/-- Places to go on at that are the same, with values that stand for each other. -/
inductive Flows (p : Pairing) : Flow → Flow → Prop
  | goOn (pos : Nat) : Flows p (.goOn pos) (.goOn pos)
  | jump (offset : Nat) : Flows p (.jump offset) (.jump offset)
  | finish {v v' : Value} (h : p.Values v v') : Flows p (.finish v) (.finish v')
  | host {callee callee' receiver receiver' : Value} {args args' : List Value} (hcallee : p.Values callee callee')
    (hreceiver : p.Values receiver receiver') (hargs : List.Forall₂ p.Values args args') (slot pos : Nat) :
    Flows p (.host callee receiver args slot pos) (.host callee' receiver' args' slot pos)

/-- Steps to the same place, with values that stand for each other. -/
inductive Steps (p : Pairing) : Machine.Step → Machine.Step → Prop
  | goOn (c : Cursor) : Steps p (.goOn c) (.goOn c)
  | finish {v v' : Value} (h : p.Values v v') : Steps p (.finish v) (.finish v')
  | host {callee callee' receiver receiver' : Value} {args args' : List Value} (hcallee : p.Values callee callee')
    (hreceiver : p.Values receiver receiver') (hargs : List.Forall₂ p.Values args args') (slot : Nat) (c : Cursor) :
    Steps p (.host callee receiver args slot c) (.host callee' receiver' args' slot c)

end Pairing

namespace Machine

open Heap (Same)

variable {W α β : Type} {env : Embedding W} {p q : Pairing} {m m' : Machine W}
  {v v' w w' holder holder' key key' : Value}

theorem alike_modifyGet {R : Pairing → α → β → Prop} {f : Machine W → α × Machine W} {f' : Machine W → β × Machine W}
    (h : ∀ {q}, p.Le q → ∀ {m m' : Machine W}, Paired q m m' → R q (f m).1 (f' m').1 ∧ Paired q (f m).2 (f' m').2) :
    Alike p R (modifyGet f : Work W α) (modifyGet f') :=
  ⟨fun hle _ _ H _ _ => ⟨_, .refl _, (h hle H).2, .ok (h hle H).1⟩⟩

/-- A change of scopes, loops and the object of the latest look-up. -/
instance calm_modify (scopes : Machine W → Array Value) (loops : Machine W → Array LoopFrame)
    (lastHolder : Machine W → Value) :
    Calm (modify fun m => { m with scopes := scopes m, loops := loops m, lastHolder := lastHolder m } : Work W Unit) :=
  calm_stacks (fun _ => rfl) fun _ => rfl

/-! ## Calls -/

instance calm_beginArgs (previous : Code.Op) : Calm (beginArgs previous : Work W Unit) :=
  calm_stacks (fun m => by unfold beginArgs; split <;> [split; skip] <;> rfl)
    fun m => by unfold beginArgs; split <;> [split; skip] <;> rfl

theorem Paired.withHolder (H : Paired p m m') (hv : p.Values v v') :
    Paired p { m with lastHolder := v } { m' with lastHolder := v' } :=
  { H with lastHolder := hv, shell := H.shell }

theorem alike_beginArgs (previous : Code.Op) :
    Alike p Same (beginArgs previous : Work W Unit) (beginArgs previous) := by
  refine ⟨fun {q} hle {m m'} H _ _ => ?_⟩
  have hempty : m'.stack.isEmpty = m.stack.isEmpty := by simp only [Array.isEmpty, H.stack.size_eq]
  have hreceiver : q.Values (if previous = .get then m.lastHolder else .undefined)
      (if previous = .get then m'.lastHolder else .undefined) := by
    split
    · exact H.lastHolder
    · exact .undefined
  unfold beginArgs
  rw [hempty, H.stack.size_eq]
  split
  · split
    · exact ⟨q, .refl q, H, .error _⟩
    · exact ⟨q, .refl q, H.withHolder .undefined, .error _⟩
  · exact ⟨q, .refl q, { H.withHolder .undefined with pending := H.pending.push ⟨hreceiver, rfl⟩ }, .ok rfl⟩

instance calm_takePending : Calm (takePending : Work W PendingCall) :=
  calm_stacks (fun m => by unfold takePending; split <;> rfl) fun m => by unfold takePending; split <;> rfl

theorem alike_takePending : Alike p Pairing.Calls (takePending : Work W PendingCall) takePending := by
  refine ⟨fun {q} hle {m m'} H _ _ => ?_⟩
  have hback := H.pending.back?
  unfold takePending
  generalize m.pending.back? = x, m'.pending.back? = x' at hback ⊢
  cases hback with
  | none => exact ⟨q, .refl q, H, .error _⟩
  | some hcall => exact ⟨q, .refl q, { H with pending := H.pending.pop, shell := H.shell }, .ok hcall⟩

theorem growing_of_heap {work : Work W α} (h : ∀ m, (leftBy (work m)).heap = m.heap) : Growing work :=
  ⟨fun m => by rw [h]; exact .refl _⟩

theorem Paired.pushFrame (H : Paired p m m') (site : Option Nat) (slot : Nat) (hv : p.Values v v') :
    Paired p (m.pushFrame site slot v) (m'.pushFrame site slot v') :=
  { H with
    frames := H.frames.push ⟨H.receiver, rfl, H.scopes.size_eq, congrArg Array.size H.loops, rfl⟩
    receiver := hv
    shell := H.shell }

/-- What a call does with its callee. -/
def enterCallee (call : PendingCall) (site pos : Nat) (callee : Value) : Work W Flow :=
  match callee with
  | .function start => do
    modify fun m =>
      let m := m.pushFrame (some site) call.calleeSlot call.receiver
      { m with stack := m.stack.setIfInBounds call.calleeSlot .undefined }
    return .jump start.val
  | .native _ | .signature _ => do
    let args ← modifyGet fun m =>
      ((m.stack.drop (call.calleeSlot + 1)).toList,
        m.pushFrame (some site) call.calleeSlot call.receiver)
    return .host callee call.receiver args call.calleeSlot pos
  | _ => throw (.type "calling non-callable")

theorem callPending_eq_bind (site pos : Nat) :
    (callPending site pos : Work W Flow)
      = (do
        let call ← takePending
        let callee ← inspect fun m =>
          match m.stack[call.calleeSlot]? with
          | some v => .ok v
          | none => .error stackUnderflow
        enterCallee call site pos callee) := rfl

instance growing_enterCallee (call : PendingCall) (site pos : Nat) (callee : Value) :
    Growing (enterCallee call site pos callee : Work W Flow) :=
  growing_of_heap fun m => by unfold enterCallee; split <;> rfl

theorem alike_enterCallee {call call' : PendingCall} (hcall : p.Calls call call') (site pos : Nat)
    (hcallee : p.Values v v') :
    Alike p Pairing.Flows (enterCallee call site pos v : Work W Flow) (enterCallee call' site pos v') := by
  obtain ⟨receiver, slot⟩ := call
  obtain ⟨receiver', slot'⟩ := call'
  obtain ⟨hreceiver, rfl⟩ := hcall
  cases hcallee with
  | function start =>
    refine alike_bind (alike_modify fun hle m m' H => ?_) fun _ _ _ _ => alike_pure fun _ => .jump _
    have hpushed := H.pushFrame (some site) slot' (hreceiver.mono hle)
    exact hpushed.withStack (hpushed.stack.set _ .undefined)
  | native id =>
    refine alike_bind (R := fun q => List.Forall₂ q.Values) (alike_modifyGet fun hle m m' H => ?_)
      fun {q} hle args args' hargs => alike_pure fun hr =>
        .host (.native id) (hreceiver.mono (hle.trans hr)) (hargs.imp fun _ _ h => h.mono hr) _ _
    exact ⟨H.stack.drop _, H.pushFrame (some site) slot' (hreceiver.mono hle)⟩
  | _ => exact alike_throw _

theorem alike_callPending (site pos : Nat) :
    Alike p Pairing.Flows (callPending site pos : Work W Flow) (callPending site pos) := by
  rw [callPending_eq_bind]
  refine alike_bind alike_takePending fun {q} hle call call' hcall => ?_
  refine alike_bind (R := Pairing.Values) (alike_inspect fun hr m m' H => ?_) fun hr v v' hv =>
    alike_enterCallee (hcall.mono hr) site pos hv
  have hslot := H.stack.getElem? call.calleeSlot
  rw [hcall.calleeSlot]
  generalize m.stack[call.calleeSlot]? = x, m'.stack[call.calleeSlot]? = x' at hslot ⊢
  cases hslot with
  | none => exact .error _
  | some hv => exact .ok hv

/-- What a return goes back to, which it takes off the stack of calls. -/
def takeFrame : Work W Frame := fun m =>
  match m.frames.back? with
  | some frame => .ok frame { m with frames := m.frames.pop }
  | none => .error cannotReturn m

/-- What a return does with the frame that it goes back to. -/
def goBack (frame : Frame) : Work W Flow := do
  modify fun m =>
    { m with
      receiver := frame.receiver
      scopes := m.scopes.shrink frame.scopes
      loops := m.loops.shrink frame.loops
      stack := m.stack.shrink (frame.resultSlot + 1) }
  match frame.callSite with
  | some site => return .jump (site + 1)
  | none => return .finish (← pop)

theorem returnFromCall_eq_bind : (returnFromCall : Work W Flow) = takeFrame >>= goBack := rfl

instance calm_goBack (frame : Frame) : Calm (goBack frame : Work W Flow) := by
  have hmodify : Calm (modify fun m : Machine W =>
      { m with
        receiver := frame.receiver
        scopes := m.scopes.shrink frame.scopes
        loops := m.loops.shrink frame.loops
        stack := m.stack.shrink (frame.resultSlot + 1) }) := calm_stacks (fun _ => rfl) fun _ => rfl
  unfold goBack
  have : Calm (match frame.callSite with
      | some site => pure (.jump (site + 1))
      | none => do return .finish (← pop) : Work W Flow) := by
    split <;> infer_instance
  exact calm_bind _ _

theorem alike_takeFrame : Alike p Pairing.Frames (takeFrame : Work W Frame) takeFrame := by
  refine ⟨fun {q} hle {m m'} H _ _ => ?_⟩
  have hback := H.frames.back?
  unfold takeFrame
  generalize m.frames.back? = x, m'.frames.back? = x' at hback ⊢
  cases hback with
  | none => exact ⟨q, .refl q, H, .error _⟩
  | some hframe => exact ⟨q, .refl q, { H with frames := H.frames.pop, shell := H.shell }, .ok hframe⟩

theorem alike_goBack {frame frame' : Frame} (hframe : p.Frames frame frame') :
    Alike p Pairing.Flows (goBack frame : Work W Flow) (goBack frame') := by
  obtain ⟨receiver, site, scopes, loops, slot⟩ := frame
  obtain ⟨receiver', site', scopes', loops', slot'⟩ := frame'
  obtain ⟨hreceiver, rfl, rfl, rfl, rfl⟩ := hframe
  have hfinish (site : Option Nat) : Growing (match site with
      | some site => pure (.jump (site + 1))
      | none => do return .finish (← pop) : Work W Flow) := by
    split <;> infer_instance
  refine alike_bind (alike_modify fun hle m m' H => ?_) fun {q} hle _ _ _ => ?_
  · rw [H.loops]
    exact { H with
      receiver := hreceiver.mono hle
      scopes := H.scopes.shrink _
      stack := H.stack.shrink _
      shell := congrArg (fun n : Machine W => { n with loops := m.loops.shrink loops' }) H.shell }
  · cases site' with
    | some site => exact alike_pure fun _ => .jump _
    | none => exact alike_bind alike_pop fun _ _ _ hv => alike_pure fun hr => .finish (hv.mono hr)

theorem alike_returnFromCall : Alike p Pairing.Flows (returnFromCall : Work W Flow) returnFromCall := by
  rw [returnFromCall_eq_bind]
  exact alike_bind alike_takeFrame fun _ _ _ hframe => alike_goBack hframe

/-! ## Results and arguments -/

theorem Paired.topFrame? (H : Paired p m m') : Option.Rel p.Frames m.topFrame? m'.topFrame? :=
  H.frames.back?

instance calm_setResult (v : Value) : Calm (setResult v : Work W Unit) :=
  calm_stacks (fun m => by unfold setResult; split <;> [skip; split] <;> rfl)
    fun m => by unfold setResult; split <;> [skip; split] <;> rfl

theorem alike_setResult (hv : p.Values v v') : Alike p Same (setResult v : Work W Unit) (setResult v') := by
  refine ⟨fun {q} hle {m m'} H _ _ => ?_⟩
  have hframe := H.topFrame?
  unfold setResult
  generalize m.topFrame? = x, m'.topFrame? = x' at hframe ⊢
  cases hframe with
  | none => exact ⟨q, .refl q, H, .error _⟩
  | some hframe =>
    simp only [hframe.resultSlot, H.stack.size_eq]
    split
    · exact ⟨q, .refl q, H.withStack (H.stack.set _ (hv.mono hle)), .ok rfl⟩
    · exact ⟨q, .refl q, H, .error _⟩

theorem alike_argument (index : Nat) :
    Alike p Pairing.Values (argument index : Work W Value) (argument index) := by
  refine alike_inspect fun _ m m' H => ?_
  have hframe := H.topFrame?
  generalize m.topFrame? = x, m'.topFrame? = x' at hframe ⊢
  cases hframe with
  | none => exact .error _
  | some hframe =>
    refine .ok ?_
    rw [hframe.resultSlot]
    exact .getD (H.stack.getElem? _)

instance calm_argument (index : Nat) : Calm (argument index : Work W Value) := calm_inspect _

/-! ## Scopes and loops -/

theorem Paired.withScopes (H : Paired p m m') {scopes scopes' : Array Value} (h : Rows p.Values scopes scopes') :
    Paired p { m with scopes := scopes } { m' with scopes := scopes' } :=
  { H with scopes := h, shell := H.shell }

instance calm_openScope : Calm (openScope : Work W Unit) := by
  unfold openScope
  infer_instance

theorem alike_openScope : Alike p Same (openScope : Work W Unit) openScope :=
  alike_bind alike_newObject fun _ _ _ hscope =>
    alike_modify fun hle _ _ H => H.withScopes (H.scopes.push (hscope.mono hle))

instance calm_closeScope : Calm (closeScope : Work W Unit) :=
  calm_stacks (fun m => by unfold closeScope; split <;> rfl) fun m => by unfold closeScope; split <;> rfl

theorem alike_closeScope : Alike p Same (closeScope : Work W Unit) closeScope := by
  refine ⟨fun {q} hle {m m'} H _ _ => ?_⟩
  unfold closeScope
  rw [H.scopes.size_eq]
  split
  · exact ⟨q, .refl q, H, .error _⟩
  · exact ⟨q, .refl q, H.withScopes H.scopes.pop, .ok rfl⟩

instance calm_declare (holder key : Value) : Calm (declare holder key : Work W Unit) := by
  unfold declare
  split <;> infer_instance

theorem alike_declare (hholder : p.Values holder holder') (hkey : p.Values key key') :
    Alike p Same (declare holder key : Work W Unit) (declare holder' key') := by
  have hid := hholder.propertyHolder?
  unfold declare
  rw [hholder.typeName_eq]
  generalize holder.propertyHolder? = x, holder'.propertyHolder? = x' at hid ⊢
  cases hid with
  | none => exact alike_throw _
  | @some id id' hid =>
    refine alike_bind (R := fun q => Option.Rel q.Values) (alike_inspect fun hle m m' H => ?_)
      fun {q} hle known known' hknown => ?_
    · rw [H.heap.keyBytes_eq (hkey.mono hle)]
      cases m.heap.keyBytes key with
      | error e => exact .error e
      | ok name => exact H.heap.getOwn (hle.objects hid) name
    · cases hknown with
      | none => exact alike_setOwn (hle.objects hid) (hkey.mono hle) .undefined
      | some _ => exact alike_pure fun _ => rfl

instance calm_openLoop (breakTarget continueTarget : Nat) : Calm (openLoop breakTarget continueTarget : Work W Unit) :=
  calm_stacks (fun _ => rfl) fun _ => rfl

/-- Other loops, which are the same. -/
theorem Paired.withLoops (H : Paired p m m') (loops : Array LoopFrame) :
    Paired p { m with loops := loops } { m' with loops := loops } :=
  { H with shell := congrArg (fun n : Machine W => { n with loops := loops }) H.shell }

theorem alike_openLoop (breakTarget continueTarget : Nat) :
    Alike p Same (openLoop breakTarget continueTarget : Work W Unit) (openLoop breakTarget continueTarget) :=
  alike_modify fun _ m m' H => by
    rw [H.loops, H.scopes.size_eq]
    exact H.withLoops _

instance calm_currentLoop (word : String) : Calm (currentLoop word : Work W LoopFrame) := calm_inspect _

theorem alike_currentLoop (word : String) :
    Alike p Same (currentLoop word : Work W LoopFrame) (currentLoop word) := by
  refine alike_inspect fun _ m m' H => ?_
  have hframe : (m'.topFrame?.map Frame.loops).getD 0 = (m.topFrame?.map Frame.loops).getD 0 := by
    have hframe := H.topFrame?
    generalize m.topFrame? = x, m'.topFrame? = x' at hframe ⊢
    cases hframe with
    | none => rfl
    | some hframe => exact hframe.loops
  rw [hframe, H.loops]
  split
  · exact .error _
  · cases m.loops.back? with
    | none => exact .error _
    | some loop => exact .ok rfl

instance calm_breakLoop : Calm (breakLoop : Work W Flow) := by
  unfold breakLoop
  infer_instance

theorem alike_breakLoop : Alike p Pairing.Flows (breakLoop : Work W Flow) breakLoop := by
  refine alike_bind (alike_currentLoop _) ?_
  rintro q hle _ loop rfl
  refine alike_bind (alike_modify fun _ m m' H => ?_) fun _ _ _ _ => alike_pure fun _ => .jump _
  rw [H.loops]
  exact (H.withLoops m.loops.pop).withScopes (H.scopes.shrink loop.scopes)

instance calm_continueLoop : Calm (continueLoop : Work W Flow) := by
  unfold continueLoop
  infer_instance

theorem alike_continueLoop : Alike p Pairing.Flows (continueLoop : Work W Flow) continueLoop := by
  refine alike_bind (alike_currentLoop _) ?_
  rintro q hle _ loop rfl
  exact alike_bind (alike_modify fun _ _ _ H => H.withScopes (H.scopes.shrink _)) fun _ _ _ _ =>
    alike_pure fun _ => .jump _

/-- What a walk does with the key that it comes upon. -/
def walkTo (env : Embedding W) (name : Value) (n : Nat) (found : Option Value) : Work W Unit :=
  match found with
  | some key => do
    let scope ← inspect fun m => m.findScope name
    setProperty env scope name key
    replaceTop (.ofNat (n + 1))
  | none => replaceTop .undefined

theorem walk_eq (env : Embedding W) :
    walk env
      = (do
        let number ← peek 0
        let holder ← peek 1
        let name ← peek 2
        let found ← inspect fun m => m.walkKey holder ((number.asNumber?.map Number.clampUInt64).getD 0)
        walkTo env name ((number.asNumber?.map Number.clampUInt64).getD 0) found) := rfl

instance calm_walkTo (env : Embedding W) (name : Value) (n : Nat) (found : Option Value) :
    Calm (walkTo env name n found) := by
  unfold walkTo
  split <;> infer_instance

instance calm_walk (env : Embedding W) : Calm (walk env) := by
  rw [walk_eq]
  infer_instance

theorem alike_walkTo (hbare : env.Bare) {found found' : Option Value} (hname : p.Values v v') (n : Nat)
    (hfound : Option.Rel p.Values found found') : Alike p Same (walkTo env v n found) (walkTo env v' n found') := by
  cases hfound with
  | none => exact alike_replaceTop .undefined
  | some hkey =>
    exact alike_bind (alike_findScope hname) fun hle _ _ hscope =>
      alike_bind (alike_setProperty hbare hscope (hname.mono hle) (hkey.mono hle)) fun _ _ _ _ =>
        alike_replaceTop (.ofNat _)

theorem alike_walk (hbare : env.Bare) : Alike p Same (walk env) (walk env) := by
  rw [walk_eq]
  refine alike_bind (alike_peek 0) fun {q} hq number number' hnumber => alike_bind (alike_peek 1)
    fun {r} hr holder holder' hholder => alike_bind (alike_peek 2) fun {s} hs name name' hname => ?_
  rw [hnumber.asNumber?_eq]
  exact alike_bind (R := fun q => Option.Rel q.Values)
    (alike_inspect fun hle _ _ H => rel_walkKey H ((hholder.mono hs).mono hle) _)
    fun ht _ _ hfound => alike_walkTo hbare (hname.mono ht) _ hfound

/-! ## Instructions -/

instance calm_lookUp (env : Embedding W) (previous : Code.Op) : Calm (lookUp env previous) := by
  unfold lookUp
  infer_instance

theorem alike_lookUp (hbare : env.Bare) (previous : Code.Op) : Alike p Same (lookUp env previous) (lookUp env previous) := by
  refine alike_bind alike_pop fun {q} hq holder holder' hholder => alike_bind alike_pop
    fun {r} hr key key' hkey => alike_bind (alike_property hbare (hholder.mono hr) hkey) fun {s} hs v v' hv =>
      alike_bind (alike_push hv) fun {t} ht _ _ _ => alike_modify fun hle _ _ H => H.withHolder ?_
  split
  · exact .undefined
  · exact hholder.mono (hr.trans (hs.trans (ht.trans hle)))

/-- What an instruction that appends does with what it takes off the stack. -/
def appendTo (v target : Value) : Work W Unit :=
  match target with
  | .array id => onHeap fun h => h.modifyItems id fun items => items.push v
  | _ => throw (.type "append to non-array")

theorem append_eq :
    (append : Work W Unit)
      = (do
        let v ← pop
        let target ← pop
        appendTo v target) := rfl

instance calm_appendTo (v target : Value) : Calm (appendTo v target : Work W Unit) := by
  unfold appendTo
  split <;> infer_instance

instance calm_append : Calm (append : Work W Unit) := by
  rw [append_eq]
  infer_instance

theorem alike_append : Alike p Same (append : Work W Unit) append := by
  rw [append_eq]
  refine alike_bind alike_pop fun {q} hq v v' hv => alike_bind alike_pop fun {r} hr target target' htarget => ?_
  cases htarget with
  | array hid =>
    exact alike_onHeap fun hle _ _ H hfits hfits' =>
      H.modifyItems (hle.objects hid) (fun _ _ hitems => hitems.push (hv.mono (hr.trans hle))) hfits hfits'
  | _ => exact alike_throw _

instance calm_setArgument (env : Embedding W) (index : Nat) (name : List UInt8) :
    Calm (setArgument env index name) := by
  unfold setArgument
  infer_instance

theorem alike_setArgument (hbare : env.Bare) (index : Nat) (name : List UInt8) :
    Alike p Same (setArgument env index name) (setArgument env index name) :=
  alike_bind (alike_allocString name) fun _ _ _ hkey => alike_bind (alike_argument index) fun hv _ _ hvalue =>
    alike_bind alike_topScope fun hs _ _ hscope => alike_setProperty hbare hscope (hkey.mono (hv.trans hs)) (hvalue.mono hs)

instance calm_jumpIf (wanted : Bool) (pos distance : Nat) : Calm (jumpIf wanted pos distance : Work W Flow) := by
  unfold jumpIf
  infer_instance

theorem alike_jumpIf (wanted : Bool) (pos distance : Nat) :
    Alike p Pairing.Flows (jumpIf wanted pos distance : Work W Flow) (jumpIf wanted pos distance) := by
  refine alike_bind alike_pop fun {q} hq v v' hv => alike_bind (alike_truthy hv) ?_
  rintro r hr holds _ rfl
  split
  · exact alike_bind (alike_push .undefined) fun _ _ _ _ => alike_pure fun _ => .goOn _
  · exact alike_pure fun _ => .goOn _

instance calm_jumpKeeping (wanted : Bool) (pos distance : Nat) :
    Calm (jumpKeeping wanted pos distance : Work W Flow) := by
  unfold jumpKeeping
  infer_instance

theorem alike_jumpKeeping (wanted : Bool) (pos distance : Nat) :
    Alike p Pairing.Flows (jumpKeeping wanted pos distance : Work W Flow) (jumpKeeping wanted pos distance) := by
  refine alike_bind (alike_peek 0) fun {q} hq v v' hv => alike_bind (alike_truthy hv) ?_
  rintro r hr holds _ rfl
  exact alike_pure fun _ => .goOn _

theorem alike_functionBack (offset back : Nat) :
    Alike p Pairing.Values (ofExcept (functionBack offset back) : Work W Value) (ofExcept (functionBack offset back)) := by
  refine alike_ofExcept fun _ => ?_
  unfold functionBack Value.ofFunction?
  split
  · cases Payload.ofWord? (UInt64.ofNat (offset - back)) with
    | ok start => exact .ok (.function start)
    | error e => exact .error _
  · exact .error _

theorem calm_carryOut (env : Embedding W) (c : Cursor) {i : Code.Instr} (hi : i.isCall = false) (firstEnd next : Nat) :
    Calm (carryOut env c i firstEnd next) := by
  cases i with
  | call => cases hi
  | «return» => cases hi
  | _ =>
    simp only [carryOut]
    infer_instance

instance growing_carryOut (env : Embedding W) (c : Cursor) (i : Code.Instr) (firstEnd next : Nat) :
    Growing (carryOut env c i firstEnd next) := by
  cases hi : i.isCall with
  | false =>
    have := calm_carryOut env c hi firstEnd next
    infer_instance
  | true =>
    cases i with
    | call =>
      have : Growing (callPending c.offset next : Work W Flow) := by
        rw [callPending_eq_bind]
        infer_instance
      simp only [carryOut]
      infer_instance
    | «return» =>
      have : Growing (returnFromCall : Work W Flow) := by
        have : Growing (takeFrame : Work W Frame) := growing_of_heap fun m => by unfold takeFrame; split <;> rfl
        rw [returnFromCall_eq_bind]
        infer_instance
      simp only [carryOut]
      infer_instance
    | _ => cases hi

theorem alike_carryOut (hbare : env.Bare) (c : Cursor) (i : Code.Instr) (firstEnd next : Nat) :
    Alike p Pairing.Flows (carryOut env c i firstEnd next) (carryOut env c i firstEnd next) := by
  have hnext {q : Pairing} : Alike q Pairing.Flows (pure (.goOn next) : Work W Flow) (pure (.goOn next)) :=
    alike_pure fun _ => .goOn _
  have hdone {q : Pairing} {work work' : Work W Unit} (h : Alike q Same work work') :
      Alike q Pairing.Flows (work >>= fun _ => pure (.goOn next)) (work' >>= fun _ => pure (.goOn next)) :=
    alike_bind h fun _ _ _ _ => hnext
  have hpush {q : Pairing} {work work' : Work W Value} (h : Alike q Pairing.Values work work') :
      Alike q Pairing.Flows (work >>= fun v => push v >>= fun _ => pure (.goOn next))
        (work' >>= fun v => push v >>= fun _ => pure (.goOn next)) :=
    alike_bind h fun _ _ _ hv => hdone (alike_push hv)
  cases i with
  | nop => exact hnext
  | drop => exact alike_bind alike_pop fun _ _ _ _ => hnext
  | dup => exact hpush (alike_peek 0)
  | dup2 =>
    exact alike_bind (alike_peek 1) fun _ _ _ ha => alike_bind (alike_peek 0) fun hb _ _ hb' =>
      alike_bind (alike_push (ha.mono hb)) fun hle _ _ _ => hdone (alike_push (hb'.mono hle))
  | swap => exact hdone alike_swapTop
  | jmp distance => exact alike_pure fun _ => .goOn _
  | jmpTrue distance => exact alike_jumpIf _ _ _
  | jmpFalse distance => exact alike_jumpIf _ _ _
  | jmpNeutralTrue distance => exact alike_jumpKeeping _ _ _
  | jmpNeutralFalse distance => exact alike_jumpKeeping _ _ _
  | findScope => exact alike_bind (alike_peek 0) fun _ _ _ hname => hpush (alike_findScope hname)
  | pushScope => exact hpush alike_topScope
  | pushStr text => exact hpush (alike_allocString text)
  | pushTrue => exact hdone (alike_push (.boolean _))
  | pushFalse => exact hdone (alike_push (.boolean _))
  | pushNull => exact hdone (alike_push .null)
  | pushUndef => exact hdone (alike_push .undefined)
  | pushInt n => exact hdone (alike_push (.ofNat _))
  | pushDbl bits => exact hdone (alike_push (.number _))
  | pushObj => exact hpush alike_newObject
  | pushArray => exact hpush alike_newArray
  | pushFunc back => exact hpush (alike_functionBack _ _)
  | pushThis => exact hpush (alike_inspect fun _ _ _ H => .ok H.receiver)
  | get => exact hdone (alike_lookUp hbare _)
  | create =>
    exact alike_bind alike_pop fun _ _ _ hholder => alike_bind alike_pop fun hle _ _ hkey =>
      hdone (alike_declare (hholder.mono hle) hkey)
  | expr op => exact hdone (alike_operate hbare op)
  | append => exact hdone alike_append
  | setArg index name => exact hdone (alike_setArgument hbare index name)
  | newScope => exact hdone alike_openScope
  | delScope => exact hdone alike_closeScope
  | args => exact hdone (alike_beginArgs _)
  | call => exact alike_callPending _ _
  | «return» => exact alike_returnFromCall
  | setRetVal => exact alike_bind alike_pop fun _ _ _ hv => hdone (alike_setResult hv)
  | loop breakDistance continueDistance => exact hdone (alike_openLoop _ _)
  | «break» => exact alike_breakLoop
  | «continue» => exact alike_continueLoop
  | exit => exact alike_bind alike_pop fun _ _ _ hv => alike_pure fun hle => .finish (hv.mono hle)
  | header => exact alike_pure fun _ => .goOn _
  | forInNext => exact hdone (alike_walk hbare)

instance calm_settle (c : Cursor) (previous : Code.Op) (flow : Flow) : Calm (settle c previous flow : Work W Step) := by
  unfold settle
  split <;> infer_instance

theorem alike_settle (c : Cursor) (previous : Code.Op) {flow flow' : Flow} (hflow : p.Flows flow flow') :
    Alike p Pairing.Steps (settle c previous flow : Work W Step) (settle c previous flow') := by
  cases hflow with
  | goOn pos => exact alike_pure fun _ => .goOn _
  | jump offset =>
    refine alike_bind (R := Same) (alike_inspect fun _ m m' H => ?_) ?_
    · rw [H.program]
      cases c.goTo m.program offset previous with
      | ok c => exact .ok rfl
      | error e => exact .error e
    · rintro q hle c _ rfl
      exact alike_pure fun _ => .goOn _
  | finish hv => exact alike_pure fun hle => .finish (hv.mono hle)
  | host hcallee hreceiver hargs slot pos =>
    exact alike_pure fun hle =>
      .host (hcallee.mono hle) (hreceiver.mono hle) (hargs.imp fun _ _ h => h.mono hle) _ _

/-- A step does the same on machines that hold the same. -/
theorem alike_advance (hbare : env.Bare) (c : Cursor) : Alike p Pairing.Steps (advance env c) (advance env c) := by
  cases hread : Code.Decoded.read c.code c.pos with
  | instr i firstEnd next =>
    rw [advance_eq env hread]
    exact alike_bind (alike_carryOut hbare c i firstEnd next) fun _ _ _ hflow => alike_settle c i.op hflow
  | _ =>
    unfold advance
    rw [hread]
    exact alike_throw _

end Machine

end ScriptEngine
