import ScriptEngine.Proofs.Machine.Sites
import ScriptEngine.Proofs.Machine.Unwinding
/-!
The footing of a call.

A call stands on the frames of its callers and on their loops, and whatever code runs in it leaves these as they
are: an instruction goes on within the call or goes back to its caller (`InCall.advance`). So functions outside
of the code, executions and calls all leave the calls and loops that they found (`runsFoot`).
-/

namespace ScriptEngine

/-- Whether an instruction enters or leaves a loop. -/
def Code.Instr.isLoop : Code.Instr → Bool
  | .loop _ _ | .break => true
  | _ => false

namespace Machine

variable {W α β : Type} {env : Embedding W} {m n : Machine W}

/-! ## Work that keeps to values -/

/-- Work that leaves scopes, calls and loops alone. -/
class Aloof (work : Work W α) : Prop where
  scopes : ∀ m : Machine W, (leftBy (work m)).scopes = m.scopes
  frames : ∀ m : Machine W, (leftBy (work m)).frames = m.frames
  loops : ∀ m : Machine W, (leftBy (work m)).loops = m.loops

theorem Still.aloof {work : Work W α} (h : Still work) : Aloof work :=
  ⟨fun m => (h m).scopes, fun m => (h m).frames, fun m => (h m).loops⟩

instance aloof_pure (a : α) : Aloof (pure a : Work W α) := (still_pure a).aloof

instance aloof_throw (e : Error) : Aloof (throw e : Work W α) := (still_throw e).aloof

instance aloof_inspect (look : Machine W → Except Error α) : Aloof (inspect look) := (still_inspect look).aloof

instance aloof_ofExcept (x : Except Error α) : Aloof (ofExcept x : Work W α) := (still_ofExcept x).aloof

instance aloof_onHeap (f : EStateM Error Heap α) : Aloof (onHeap f : Work W α) := (still_onHeap f).aloof

instance aloof_alloc (f : Heap → Heap × Value) : Aloof (alloc f : Work W Value) := (still_alloc f).aloof

instance aloof_allocString (bytes : List UInt8) : Aloof (allocString bytes : Work W Value) :=
  aloof_onHeap _

instance aloof_bind (work : Work W α) (next : α → Work W β) [Aloof work] [∀ a, Aloof (next a)] :
    Aloof (work >>= next) := by
  have hall (m : Machine W) : (leftBy ((work >>= next) m)).scopes = m.scopes
      ∧ (leftBy ((work >>= next) m)).frames = m.frames ∧ (leftBy ((work >>= next) m)).loops = m.loops := by
    have hscopes : (leftBy (work m)).scopes = m.scopes := Aloof.scopes m
    have hframes : (leftBy (work m)).frames = m.frames := Aloof.frames m
    have hloops : (leftBy (work m)).loops = m.loops := Aloof.loops m
    rw [bind_eq]
    generalize work m = r at hscopes hframes hloops ⊢
    cases r with
    | ok a n => exact ⟨(Aloof.scopes n).trans hscopes, (Aloof.frames n).trans hframes, (Aloof.loops n).trans hloops⟩
    | error e n => exact ⟨hscopes, hframes, hloops⟩
  exact ⟨fun m => (hall m).1, fun m => (hall m).2.1, fun m => (hall m).2.2⟩

instance aloof_ite (c : Prop) [Decidable c] (work work' : Work W α) [Aloof work] [Aloof work'] :
    Aloof (if c then work else work') := by
  split <;> infer_instance

instance aloof_push (v : Value) : Aloof (push v : Work W Unit) :=
  ⟨fun _ => rfl, fun _ => rfl, fun _ => rfl⟩

instance aloof_pop : Aloof (pop : Work W Value) := by
  refine ⟨fun m => ?_, fun m => ?_, fun m => ?_⟩ <;>
  · unfold pop
    split <;> rfl

instance aloof_peek (places : Nat) : Aloof (peek places : Work W Value) := by
  refine ⟨fun m => ?_, fun m => ?_, fun m => ?_⟩ <;>
  · unfold peek
    split <;> rfl

instance aloof_replaceTop (v : Value) : Aloof (replaceTop v : Work W Unit) := by
  refine ⟨fun m => ?_, fun m => ?_, fun m => ?_⟩ <;>
  · unfold replaceTop
    split <;> rfl

instance aloof_swapTop : Aloof (swapTop : Work W Unit) := by
  refine ⟨fun m => ?_, fun m => ?_, fun m => ?_⟩ <;>
  · unfold swapTop
    split <;> rfl

instance aloof_topScope : Aloof (topScope : Work W Value) := still_topScope.aloof

instance aloof_setProperty (env : Embedding W) (holder key v : Value) : Aloof (setProperty env holder key v) :=
  (still_setProperty env holder key v).aloof

instance aloof_declare (holder key : Value) : Aloof (declare holder key : Work W Unit) :=
  (still_declare holder key).aloof

instance aloof_setArgument (env : Embedding W) (index : Nat) (name : List UInt8) :
    Aloof (setArgument env index name) :=
  (still_setArgument env index name).aloof

instance aloof_binary (op : Code.Operator) (a b : Value) : Aloof (binary op a b : Work W Value) :=
  (still_binary op a b).aloof

instance aloof_unary (op : Code.Operator) (v : Value) : Aloof (unary op v : Work W Value) :=
  (still_unary op v).aloof

instance aloof_update (env : Embedding W) (op : Code.Operator) (holder key v : Value) :
    Aloof (update env op holder key v) :=
  (still_update env op holder key v).aloof

instance aloof_operate (env : Embedding W) (op : Code.Operator) : Aloof (operate env op) := by
  cases op <;> simp only [operate, assign, compoundAssign, step] <;> infer_instance

instance aloof_lookUp (env : Embedding W) (previous : Code.Op) : Aloof (lookUp env previous) := by
  have (f : Machine W → Value) : Aloof (modify fun m : Machine W => { m with lastHolder := f m }) :=
    ⟨fun _ => rfl, fun _ => rfl, fun _ => rfl⟩
  unfold lookUp
  exact aloof_bind _ _

instance aloof_appendTo (v target : Value) : Aloof (appendTo v target : Work W Unit) := by
  unfold appendTo
  split
  · exact aloof_onHeap _
  · exact aloof_throw _

instance aloof_append : Aloof (append : Work W Unit) := by
  rw [append_eq]
  infer_instance

instance aloof_walkTo (env : Embedding W) (name : Value) (n : Nat) (found : Option Value) :
    Aloof (walkTo env name n found) := by
  unfold walkTo
  split <;> infer_instance

instance aloof_walk (env : Embedding W) : Aloof (walk env) := by
  rw [walk_eq]
  infer_instance

instance aloof_setResult (v : Value) : Aloof (setResult v : Work W Unit) := by
  refine ⟨fun m => ?_, fun m => ?_, fun m => ?_⟩ <;>
  · unfold setResult
    split
    · rfl
    · split <;> rfl

instance aloof_beginArgs (previous : Code.Op) : Aloof (beginArgs previous : Work W Unit) := by
  refine ⟨fun m => ?_, fun m => ?_, fun m => ?_⟩ <;>
  · unfold beginArgs
    split
    · dsimp only [leftBy]
      split <;> rfl
    · rfl

instance aloof_jumpIf (wanted : Bool) (pos distance : Nat) : Aloof (jumpIf wanted pos distance : Work W Flow) := by
  unfold jumpIf
  infer_instance

instance aloof_jumpKeeping (wanted : Bool) (pos distance : Nat) :
    Aloof (jumpKeeping wanted pos distance : Work W Flow) := by
  unfold jumpKeeping
  infer_instance

instance aloof_takePending : Aloof (takePending : Work W PendingCall) := by
  refine ⟨fun m => ?_, fun m => ?_, fun m => ?_⟩ <;>
  · unfold takePending
    split <;> rfl

instance aloof_currentLoop (word : String) : Aloof (currentLoop word : Work W LoopFrame) := aloof_inspect _

/-! ## Calls and loops -/

/-- The calls and the loops are the same. -/
structure SameFooting (m n : Machine W) : Prop where
  returns : n.skeleton.returns = m.skeleton.returns
  loops : n.skeleton.loops = m.skeleton.loops

theorem SameFooting.refl (m : Machine W) : m.SameFooting m :=
  ⟨rfl, rfl⟩

theorem SameFooting.trans {l : Machine W} (h : m.SameFooting n) (h' : n.SameFooting l) : m.SameFooting l :=
  ⟨h'.returns.trans h.returns, h'.loops.trans h.loops⟩

theorem SameFooting.of_skeleton (h : n.skeleton = m.skeleton) : m.SameFooting n :=
  ⟨congrArg Skeleton.returns h, congrArg Skeleton.loops h⟩

theorem SameFooting.of_eq (hframes : n.frames = m.frames) (hloops : n.loops = m.loops) : m.SameFooting n :=
  ⟨by simp only [skeleton, hframes], by simp only [skeleton, hloops]⟩

theorem sameFooting_collectIfNeeded (m : Machine W) : m.SameFooting m.collectIfNeeded :=
  .of_skeleton (collectIfNeeded_spares m (Depths.Le.refl _)).2

theorem Aloof.sameFooting (work : Work W α) [Aloof work] (m : Machine W) : m.SameFooting (leftBy (work m)) :=
  .of_eq (Aloof.frames m) (Aloof.loops m)

theorem sameFooting_noteFailure (m : Machine W) (offset : Nat) (e : Error) : m.SameFooting (m.noteFailure offset e) := by
  cases e <;> exact ⟨rfl, rfl⟩

/-- The frame on top. -/
theorem back_of_returns {frame : Return} {callers : List Return} (h : m.skeleton.returns = frame :: callers) :
    ∃ top : Frame, m.frames.back? = some top ∧ top.bare = frame := by
  have hlist : m.frames.toList.reverse.map Frame.bare = frame :: callers := h
  obtain ⟨top, rest, hframes, hbare, -⟩ := List.map_eq_cons_iff.mp hlist
  refine ⟨top, ?_, hbare⟩
  rw [← Array.getLast?_toList, List.getLast?_eq_head?_reverse, hframes]
  rfl

theorem length_loops (m : Machine W) : m.skeleton.loops.length = m.loops.size := by
  simp [skeleton]

/-- A call takes a frame, and nothing else that calls and loops stand on. -/
structure Calls (site : Nat) (m n : Machine W) : Prop where
  returns : ∃ frame : Return, frame.callSite = some site ∧ frame.loops = m.skeleton.loops.length
    ∧ n.skeleton.returns = frame :: m.skeleton.returns
  loops : n.skeleton.loops = m.skeleton.loops

theorem Calls.of_sameFooting {l : Machine W} {site : Nat} (hm : m.SameFooting l) (h : Calls site l n) : Calls site m n := by
  obtain ⟨frame, hsite, hfloor, hreturns⟩ := h.returns
  exact ⟨⟨frame, hsite, by rw [hfloor, hm.loops], by rw [hreturns, hm.returns]⟩, h.loops.trans hm.loops⟩

theorem calls_pushFrame (m : Machine W) (site slot : Nat) (receiver : Value) :
    Calls site m (m.pushFrame (some site) slot receiver) :=
  ⟨⟨⟨some site, m.scopes.size, m.loops.size, slot⟩, rfl, (length_loops m).symm,
    by simp [skeleton, pushFrame, Frame.bare]⟩, rfl⟩

/-- What comes of a call: code at an offset, or a function outside of the code. -/
def Called (site pos : Nat) (m : Machine W) : EStateM.Result Error (Machine W) Flow → Prop
  | .ok (.jump _) n => Calls site m n
  | .ok (.host _ _ _ _ next) n => Calls site m n ∧ next = pos
  | .error _ n => m.SameFooting n
  | _ => False

theorem called_bind {work : Work W α} [Aloof work] {next : α → Work W Flow} {site pos : Nat}
    (hnext : ∀ a n, Called site pos n (next a n)) (m : Machine W) : Called site pos m ((work >>= next) m) := by
  have hsame := Aloof.sameFooting work m
  rw [bind_eq]
  generalize work m = r at hsame ⊢
  cases r with
  | error e n => exact hsame
  | ok a n =>
    have hcalled := hnext a n
    dsimp only
    generalize next a n = r at hcalled ⊢
    cases r with
    | error e l => exact hsame.trans hcalled
    | ok flow l =>
      cases flow with
      | jump offset => exact .of_sameFooting hsame hcalled
      | host callee receiver args slot pos' => exact ⟨.of_sameFooting hsame hcalled.1, hcalled.2⟩
      | goOn pos' | finish v => exact hcalled.elim

theorem called_callPending (site pos : Nat) (m : Machine W) : Called site pos m (callPending site pos m) := by
  rw [callPending_eq_bind]
  refine called_bind (fun call n => called_bind (fun callee n => ?_) n) m
  cases callee with
  | function start =>
    have hpushed := calls_pushFrame n site call.calleeSlot call.receiver
    exact ⟨hpushed.returns, hpushed.loops⟩
  | native id | signature id => exact ⟨calls_pushFrame n site call.calleeSlot call.receiver, rfl⟩
  | _ => exact .refl n

/-- What comes of going back: the frame on top is taken off, and the loops of the call with it. -/
def GoneBack (m : Machine W) : EStateM.Result Error (Machine W) Flow → Prop
  | .ok flow n => ∃ frame callers, m.skeleton.returns = frame :: callers ∧ n.skeleton.returns = callers
    ∧ n.skeleton.loops = m.skeleton.loops.drop (m.skeleton.loops.length - frame.loops)
    ∧ ((∃ v, flow = .finish v) ∨ ∃ site, frame.callSite = some site ∧ flow = .jump (site + 1))
  | .error _ n => m.SameFooting n ∨ ∃ frame callers, m.skeleton.returns = frame :: callers ∧ n.skeleton.returns = callers
    ∧ n.skeleton.loops = m.skeleton.loops.drop (m.skeleton.loops.length - frame.loops)

theorem goneBack_returnFromCall (m : Machine W) : GoneBack m (returnFromCall m) := by
  cases hreturns : m.skeleton.returns with
  | nil =>
    have hempty : m.frames.back? = none := by
      have hlength := congrArg List.length hreturns
      rw [Array.back?_eq_none_iff]
      simpa [skeleton] using hlength
    have hfail : returnFromCall m = .error cannotReturn m := by
      rw [returnFromCall_eq_bind, bind_eq]
      simp only [takeFrame, hempty]
    rw [hfail]
    exact .inl (.refl m)
  | cons frame callers =>
    obtain ⟨top, hback, rfl⟩ := back_of_returns hreturns
    have hskeleton := skeleton_unframed m top
    have hloops : (unframed m top).skeleton.loops = m.skeleton.loops.drop (m.skeleton.loops.length - top.loops) := by
      rw [hskeleton, length_loops]
    have htail : (unframed m top).skeleton.returns = callers := by
      rw [hskeleton, hreturns]
      rfl
    rw [returnFromCall_eq hback]
    cases hsite : top.callSite with
    | some site => exact ⟨top.bare, callers, hreturns, htail, hloops, .inr ⟨site, hsite, rfl⟩⟩
    | none =>
      have hpop := Aloof.sameFooting pop (unframed m top)
      dsimp only
      rw [bind_eq]
      generalize pop (unframed m top) = r at hpop ⊢
      cases r with
      | ok v n =>
        exact ⟨top.bare, callers, hreturns, hpop.returns.trans htail, hpop.loops.trans hloops, .inl ⟨v, rfl⟩⟩
      | error e n => exact .inr ⟨top.bare, callers, hreturns, hpop.returns.trans htail, hpop.loops.trans hloops⟩

/-! ## Within a call -/

/-- The calls of some callers and their loops are there, below all others. -/
structure Rests (callers : List Return) (outer : List LoopFrame) (m : Machine W) : Prop where
  returns : callers <:+ m.skeleton.returns
  loops : outer <:+ m.skeleton.loops

/-- A call is under way: its frame is on top of those of its callers, and below those of the calls that are made
from it; the loops of its callers are below all others. -/
structure InCall (frame : Return) (callers : List Return) (outer : List LoopFrame) (m : Machine W) : Prop where
  returns : ∃ calls, m.skeleton.returns = calls ++ frame :: callers ∧ ∀ call ∈ calls, outer.length ≤ call.loops
  loops : outer <:+ m.skeleton.loops
  floor : frame.loops = outer.length

variable {frame : Return} {callers : List Return} {outer : List LoopFrame}

theorem Rests.of_sameFooting (h : Rests callers outer m) (hn : m.SameFooting n) : Rests callers outer n :=
  ⟨hn.returns ▸ h.returns, hn.loops ▸ h.loops⟩

namespace InCall

theorem of_sameFooting (h : InCall frame callers outer m) (hn : m.SameFooting n) : InCall frame callers outer n :=
  ⟨by rw [hn.returns]; exact h.returns, hn.loops ▸ h.loops, h.floor⟩

theorem rests (h : InCall frame callers outer m) : Rests callers outer m := by
  obtain ⟨calls, hcalls, -⟩ := h.returns
  exact ⟨⟨calls ++ [frame], by simp [hcalls]⟩, h.loops⟩

/-- The calls under way are those of the callers and at least one more. -/
theorem lt_size (h : InCall frame callers outer m) : callers.length < m.frames.size := by
  obtain ⟨calls, hcalls, -⟩ := h.returns
  rw [size_frames, hcalls]
  simp
  omega

/-- The frame on top, which has the loops of the callers below its own. -/
theorem top (h : InCall frame callers outer m) :
    ∃ call rest, m.skeleton.returns = call :: rest ∧ outer.length ≤ call.loops
      ∧ ((call = frame ∧ rest = callers) ∨ InCall frame callers outer { m with frames := m.frames.pop }) := by
  obtain ⟨calls, hcalls, hloops⟩ := h.returns
  cases calls with
  | nil => exact ⟨frame, callers, hcalls, Nat.le_of_eq h.floor.symm, .inl ⟨rfl, rfl⟩⟩
  | cons call calls =>
    refine ⟨call, calls ++ frame :: callers, hcalls, hloops call List.mem_cons_self, .inr ⟨⟨calls, ?_, ?_⟩, h.loops, h.floor⟩⟩
    · have htail := congrArg List.tail hcalls
      simpa [skeleton] using htail
    · exact fun other hother => hloops other (List.mem_cons_of_mem _ hother)

/-- Another call is made. -/
theorem call (h : InCall frame callers outer m) {site : Nat} (hn : Calls site m n) : InCall frame callers outer n := by
  obtain ⟨calls, hcalls, hloops⟩ := h.returns
  obtain ⟨top, -, hfloor, hreturns⟩ := hn.returns
  refine ⟨⟨top :: calls, by rw [hreturns, hcalls]; rfl, fun call hcall => ?_⟩, hn.loops ▸ h.loops, h.floor⟩
  rcases List.mem_cons.mp hcall with rfl | hcall
  · rw [hfloor]
    exact h.loops.length_le
  · exact hloops call hcall

end InCall

/-- After a function outside of the code, the calls and loops are those from before its call. -/
theorem Calls.leaveHost {l : Machine W} {site : Nat} (h : Calls site m n) (hl : n.SameFooting l) :
    m.SameFooting l.leaveHost := by
  obtain ⟨top, -, -, hreturns⟩ := h.returns
  constructor
  · rw [skeleton_leaveHost]
    show l.skeleton.returns.tail = m.skeleton.returns
    rw [hl.returns, hreturns]
    rfl
  · rw [skeleton_leaveHost]
    exact hl.loops.trans h.loops

/-! ## Instructions -/

/-- Work that leaves calls and loops alone. -/
def LeavesCalls (work : Work W α) : Prop :=
  ∀ m : Machine W, m.SameFooting (leftBy (work m))

theorem leavesCalls_of_aloof (work : Work W α) [Aloof work] : LeavesCalls work :=
  fun m => Aloof.sameFooting work m

theorem leavesCalls_bind {work : Work W α} {next : α → Work W β} (h : LeavesCalls work)
    (hnext : ∀ a, LeavesCalls (next a)) : LeavesCalls (work >>= next) := by
  intro m
  have hm := h m
  rw [bind_eq]
  generalize work m = r at hm ⊢
  cases r with
  | ok a n => exact hm.trans (hnext a n)
  | error e n => exact hm

theorem leavesCalls_openScope : LeavesCalls (openScope : Work W Unit) :=
  leavesCalls_bind (leavesCalls_of_aloof _) fun _ _ => .of_eq rfl rfl

theorem leavesCalls_closeScope : LeavesCalls (closeScope : Work W Unit) := by
  intro m
  unfold closeScope
  split <;> exact .of_eq rfl rfl

theorem leavesCalls_continueLoop : LeavesCalls (continueLoop : Work W Flow) :=
  leavesCalls_bind (leavesCalls_of_aloof (currentLoop _)) fun _ => leavesCalls_bind (fun _ => .of_eq rfl rfl) fun _ =>
    leavesCalls_of_aloof _

theorem leavesCalls_carryOut (env : Embedding W) (c : Cursor) {i : Code.Instr} (hcall : i.isCall = false)
    (hloop : i.isLoop = false) (firstEnd next : Nat) : LeavesCalls (carryOut env c i firstEnd next) := by
  cases i with
  | call | «return» => cases hcall
  | loop b d | «break» => cases hloop
  | newScope => exact leavesCalls_bind leavesCalls_openScope fun _ => leavesCalls_of_aloof _
  | delScope => exact leavesCalls_bind leavesCalls_closeScope fun _ => leavesCalls_of_aloof _
  | «continue» => exact leavesCalls_continueLoop
  | _ =>
    simp only [carryOut]
    exact leavesCalls_of_aloof _

/-- What an instruction that is carried out within a call comes to: the call goes on, or it went back to its
caller, or the run is over. -/
def FlowKeeps (frame : Return) (callers : List Return) (outer : List LoopFrame) (m : Machine W) :
    EStateM.Result Error (Machine W) Flow → Prop
  | .error _ n | .ok (.finish _) n => Rests callers outer n
  | .ok (.goOn _) n => InCall frame callers outer n
  | .ok (.jump offset) n => InCall frame callers outer n
    ∨ n.skeleton.returns = callers ∧ n.skeleton.loops = outer ∧ ∃ site, frame.callSite = some site ∧ offset = site + 1
  | .ok (.host _ _ _ _ _) n => ∃ site, Calls site m n

theorem flowKeeps_of_leavesCalls (h : InCall frame callers outer m) {work : Work W Flow} (hwork : LeavesCalls work)
    [StaysInside work] : FlowKeeps frame callers outer m (work m) := by
  have hsame := hwork m
  cases hm : work m with
  | error e n =>
    rw [hm] at hsame
    exact h.rests.of_sameFooting hsame
  | ok flow n =>
    rw [hm] at hsame
    cases flow with
    | goOn pos => exact h.of_sameFooting hsame
    | jump offset => exact .inl (h.of_sameFooting hsame)
    | finish v => exact h.rests.of_sameFooting hsame
    | host callee receiver args slot pos => exact absurd hm (StaysInside.ne_host m n callee receiver args slot pos)

theorem loops_openLoop (breakTarget continueTarget : Nat) (m : Machine W) :
    (leftBy (openLoop breakTarget continueTarget m)).skeleton.loops
      = ⟨m.scopes.size, breakTarget, continueTarget⟩ :: m.skeleton.loops := by
  show (m.loops.push ⟨m.scopes.size, breakTarget, continueTarget⟩).toList.reverse = _ :: m.loops.toList.reverse
  simp

theorem flowKeeps_openLoop (h : InCall frame callers outer m) (breakTarget continueTarget next : Nat) :
    FlowKeeps frame callers outer m ((openLoop breakTarget continueTarget >>= fun _ => pure (.goOn next)) m) := by
  have hpush := loops_openLoop breakTarget continueTarget m
  refine ⟨h.returns, ?_, h.floor⟩
  exact hpush ▸ h.loops.trans (List.suffix_cons _ _)

/-- The loop that a jump means is one of the call that is running, if that has any. -/
theorem currentLoop_cases {call : Return} {rest : List Return} (h : m.skeleton.returns = call :: rest) (word : String) :
    (m.skeleton.loops.length ≤ call.loops
      ∧ currentLoop word m = .error (.source ("misplaced '" ++ word ++ "'")) m)
    ∨ ∃ loop own, m.skeleton.loops = loop :: own ∧ call.loops ≤ own.length ∧ currentLoop word m = .ok loop m := by
  obtain ⟨top, hback, rfl⟩ := back_of_returns h
  have hfloor : (m.topFrame?.map Frame.loops).getD 0 = top.loops := by rw [topFrame?, hback]; rfl
  rw [length_loops]
  unfold currentLoop inspect
  dsimp only
  rw [hfloor]
  by_cases hmisplaced : m.loops.size ≤ top.loops
  · rw [if_pos hmisplaced]
    exact .inl ⟨hmisplaced, rfl⟩
  · rw [if_neg hmisplaced]
    cases hloops : m.skeleton.loops with
    | nil =>
      have hlength := congrArg List.length hloops
      rw [length_loops] at hlength
      simp only [List.length_nil] at hlength
      omega
    | cons loop own =>
      have hlength := congrArg List.length hloops
      rw [length_loops, List.length_cons] at hlength
      have hlast : m.loops.back? = some loop := by
        rw [← Array.getLast?_toList, List.getLast?_eq_head?_reverse, show m.loops.toList.reverse = loop :: own from hloops]
        rfl
      rw [hlast]
      refine .inr ⟨loop, own, rfl, ?_, rfl⟩
      show top.loops ≤ own.length
      omega

theorem flowKeeps_breakLoop (h : InCall frame callers outer m) :
    FlowKeeps frame callers outer m (breakLoop m) := by
  obtain ⟨call, rest, hreturns, hfloor, -⟩ := h.top
  unfold breakLoop
  rw [bind_eq]
  rcases currentLoop_cases hreturns "break" with ⟨-, hloop⟩ | ⟨loop, own, hloops, hown, hloop⟩
  · rw [hloop]
    exact h.rests
  · rw [hloop]
    refine .inl ⟨h.returns, ?_, h.floor⟩
    have htail : m.loops.pop.toList.reverse = own := by
      have hlist : m.loops.toList.reverse = loop :: own := hloops
      rw [Array.toList_pop, ← List.tail_reverse, hlist]
      rfl
    have hinside := h.loops
    rw [hloops, List.suffix_cons_iff] at hinside
    rcases hinside with houter | houter
    · rw [houter, List.length_cons] at hfloor
      omega
    · show outer <:+ m.loops.pop.toList.reverse
      rwa [htail]

theorem suffix_drop {l : List LoopFrame} (h : outer <:+ l) {k : Nat} (hk : k + outer.length ≤ l.length) :
    outer <:+ l.drop k := by
  obtain ⟨own, rfl⟩ := h
  rw [List.length_append] at hk
  rw [List.drop_append_of_le_length (by omega)]
  exact List.suffix_append _ _

theorem flowKeeps_returnFromCall (h : InCall frame callers outer m) :
    FlowKeeps frame callers outer m (returnFromCall m) := by
  have hback := goneBack_returnFromCall m
  obtain ⟨call, rest, hreturns, hfloor, hcall⟩ := h.top
  -- the loops of the callers are below those of the call that goes back
  have hloops : outer <:+ m.skeleton.loops.drop (m.skeleton.loops.length - call.loops) := by
    have := h.loops.length_le
    exact suffix_drop h.loops (by omega)
  have hexact (heq : call = frame) : m.skeleton.loops.drop (m.skeleton.loops.length - call.loops) = outer := by
    obtain ⟨own, hown⟩ := h.loops
    rw [heq, h.floor, ← hown, List.length_append, Nat.add_sub_cancel, List.drop_left]
  have hrests {n : Machine W} (hn : n.skeleton.returns = rest)
      (hnloops : n.skeleton.loops = m.skeleton.loops.drop (m.skeleton.loops.length - call.loops)) : Rests callers outer n := by
    refine ⟨?_, hnloops ▸ hloops⟩
    rw [hn]
    rcases hcall with ⟨-, rfl⟩ | hinner
    · exact List.suffix_refl _
    · have htail : ({ m with frames := m.frames.pop } : Machine W).skeleton.returns = rest := by
        have hlist := congrArg List.tail hreturns
        simpa [skeleton] using hlist
      exact htail ▸ hinner.rests.returns
  generalize returnFromCall m = r at hback ⊢
  cases r with
  | error e n =>
    rcases hback with hsame | ⟨top, others, htop, hn, hnloops⟩
    · exact h.rests.of_sameFooting hsame
    · rw [hreturns] at htop
      cases htop
      exact hrests hn hnloops
  | ok flow n =>
    obtain ⟨top, others, htop, hn, hnloops, hflow⟩ := hback
    rw [hreturns] at htop
    cases htop
    rcases hflow with ⟨v, rfl⟩ | ⟨site, hsite, rfl⟩
    · exact hrests hn hnloops
    · rcases hcall with ⟨rfl, rfl⟩ | hinner
      · exact .inr ⟨hn, hnloops.trans (hexact rfl), site, hsite, rfl⟩
      · refine .inl ⟨?_, hnloops ▸ hloops, h.floor⟩
        have htail : ({ m with frames := m.frames.pop } : Machine W).skeleton.returns = rest := by
          have hlist := congrArg List.tail hreturns
          simpa [skeleton] using hlist
        rw [hn, ← htail]
        exact hinner.returns

/-- Whatever an instruction does, the callers of a call that is under way keep their calls and loops. -/
theorem InCall.carryOut (h : InCall frame callers outer m) (env : Embedding W) (c : Cursor) (i : Code.Instr)
    (firstEnd next : Nat) : FlowKeeps frame callers outer m (Machine.carryOut env c i firstEnd next m) := by
  cases hcall : i.isCall with
  | true =>
    cases i with
    | «return» => exact flowKeeps_returnFromCall h
    | call =>
      have hcalled := called_callPending c.offset next m
      show FlowKeeps frame callers outer m (callPending c.offset next m)
      generalize callPending c.offset next m = r at hcalled ⊢
      cases r with
      | error e n => exact h.rests.of_sameFooting hcalled
      | ok flow n =>
        cases flow with
        | jump offset => exact .inl (h.call hcalled)
        | host callee receiver args slot pos => exact ⟨_, hcalled.1⟩
        | goOn pos | finish v => exact hcalled.elim
    | _ => cases hcall
  | false =>
    cases hloop : i.isLoop with
    | true =>
      cases i with
      | loop b d => exact flowKeeps_openLoop h _ _ _
      | «break» => exact flowKeeps_breakLoop h
      | _ => cases hloop
    | false =>
      have := staysInside_carryOut env c hcall firstEnd next
      exact flowKeeps_of_leavesCalls h (leavesCalls_carryOut env c hcall hloop firstEnd next)

/-- What a step within a call comes to. -/
def StepKeeps (frame : Return) (callers : List Return) (outer : List LoopFrame) (c : Cursor) (m : Machine W) :
    EStateM.Result Error (Machine W) Step → Prop
  | .error _ n | .ok (.finish _) n => Rests callers outer n
  | .ok (.goOn next) n => InCall frame callers outer n
    ∨ n.skeleton.returns = callers ∧ n.skeleton.loops = outer
      ∧ ∃ site op, op ≠ .get ∧ frame.callSite = some site ∧ c.goTo n.program (site + 1) op = .ok next
  | .ok (.host _ _ _ _ _) n => ∃ site, Calls site m n

/-- A look-up goes on behind itself. -/
theorem op_ne_get_of_jump {env : Embedding W} {c : Cursor} {i : Code.Instr} {firstEnd next offset : Nat}
    (hdone : Machine.carryOut env c i firstEnd next m = .ok (.jump offset) n) : i.op ≠ .get := by
  intro hop
  cases i with
  | get =>
    have hread : (lookUp env c.previous >>= fun _ => pure (Flow.goOn next)) m = .ok (.jump offset) n := hdone
    obtain ⟨_, _, _, hgo⟩ := bind_eq_ok.mp hread
    cases hgo
  | _ => cases hop

/-- A step goes on within the call, or goes back to its caller, or ends the run; the callers keep their calls and
loops. -/
theorem InCall.advance (h : InCall frame callers outer m) (env : Embedding W) (c : Cursor) :
    StepKeeps frame callers outer c m (Machine.advance env c m) := by
  cases hread : Code.Decoded.read c.code c.pos with
  | instr i firstEnd next =>
    have hflow := h.carryOut env c i firstEnd next
    rw [advance_eq env hread, bind_eq]
    generalize hdone : Machine.carryOut env c i firstEnd next m = r at hflow ⊢
    cases r with
    | error e n => exact hflow
    | ok flow n =>
      cases flow with
      | goOn pos => exact .inl hflow
      | finish v => exact hflow
      | host callee receiver args slot pos => exact hflow
      | jump offset =>
        simp only [settle, bind_eq, inspect]
        cases hgo : c.goTo n.program offset i.op with
        | ok c' =>
          rcases hflow with hinside | ⟨hreturns, hloops, site, hsite, rfl⟩
          · exact .inl hinside
          · exact .inr ⟨hreturns, hloops, site, i.op, op_ne_get_of_jump hdone, hsite, hgo⟩
        | error e =>
          rcases hflow with hinside | ⟨hreturns, hloops, -⟩
          · exact hinside.rests
          · exact ⟨hreturns ▸ List.suffix_refl _, hloops ▸ List.suffix_refl _⟩
  | _ =>
    unfold Machine.advance
    rw [hread]
    exact h.rests

/-! ## Runs -/

/-- The call that an execution starts with. -/
theorem inCall_enterExecution (m : Machine W) (receiver : Value) (args : List Value) :
    ∃ frame : Return, frame.callSite = none
      ∧ InCall frame m.skeleton.returns m.skeleton.loops (m.enterExecution receiver args) :=
  ⟨⟨none, m.scopes.size, m.loops.size, m.stack.size⟩, rfl,
    ⟨[], by simp [enterExecution, pushFrame, skeleton, Frame.bare], fun _ h => absurd h List.not_mem_nil⟩,
    List.suffix_refl _, (length_loops m).symm⟩

/-- What is below all others on a stack is left when the stack is cut back to it. -/
theorem reverse_shrink {ι κ : Type} {xs : Array ι} {ys : List κ} (f : ι → κ) (h : ys <:+ xs.toList.reverse.map f) :
    (xs.shrink ys.length).toList.reverse.map f = ys := by
  rw [Array.toList_shrink, List.reverse_take, List.map_drop, ← @List.length_reverse _ xs.toList]
  obtain ⟨more, hmore⟩ := h
  have hlength := congrArg List.length hmore
  rw [List.length_append, List.length_map] at hlength
  rw [← hmore, ← hlength, Nat.add_sub_cancel, List.drop_left]

/-- An execution leaves the calls and loops that it found, if they are still there when it ends. -/
theorem Rests.leaveExecution (h : Rests m.skeleton.returns m.skeleton.loops n) (receiver : Value)
    (result : Except Error Value) : m.SameFooting (n.leaveExecution m.depths receiver result).1 := by
  obtain ⟨trace, interrupted, hend, -⟩ := leaveExecution_eq n m.depths receiver result
  rw [hend]
  constructor
  · have hframes := reverse_shrink Frame.bare h.returns
    rwa [← size_frames] at hframes
  · have hsuffix : m.skeleton.loops <:+ n.loops.toList.reverse.map id := by
      rw [List.map_id]
      exact h.loops
    have hloops := reverse_shrink id hsuffix
    rwa [List.map_id, length_loops] at hloops

/-- Runs that take `budget` at most leave the calls and loops that they found. -/
structure RunsFoot (env : Embedding W) (budget : Nat) : Prop where
  run : ∀ {m n : Machine W} {c : Cursor} {result : Except Error Value} {frame : Return} {callers : List Return}
    {outer : List LoopFrame}, frame.callSite = none → InCall frame callers outer m →
    Machine.run env m c budget = .done n result → Rests callers outer n
  execute : ∀ {m n : Machine W} {start : Nat} {receiver : Value} {args : List Value} {result : Except Error Value},
    Machine.execute env m start receiver args budget = .done n result → m.SameFooting n
  callValue : ∀ {m n : Machine W} {callee receiver : Value} {args : List Value} {result : Except Error Value},
    Machine.callValue env m callee receiver args budget = .done n result → m.SameFooting n
  perform : ∀ {m n : Machine W} {a : Action W Value} {result : Except Error Value}, a.Tidy m →
    Machine.perform env a budget = .done n result → m.SameFooting n

theorem RunsFoot.run_succ (henv : env.Steady) {budget : Nat} (ih : RunsFoot env budget) {c : Cursor}
    {result : Except Error Value} (hsite : frame.callSite = none) (h : InCall frame callers outer m)
    (hrun : Machine.run env m c (budget + 1) = .done n result) : Rests callers outer n := by
  rw [Machine.run_succ] at hrun
  split at hrun
  · cases hrun
    exact h.rests
  · have hstep := (h.of_sameFooting (sameFooting_collectIfNeeded m)).advance env c
    cases hadvance : Machine.advance env c m.collectIfNeeded with
    | error e m₁ =>
      rw [hadvance] at hrun hstep
      cases hrun
      exact Rests.of_sameFooting hstep (sameFooting_noteFailure _ _ _)
    | ok step m₁ =>
      rw [hadvance] at hrun hstep
      cases step with
      | finish v =>
        cases hrun
        exact hstep
      | goOn next =>
        rcases hstep with hinside | ⟨-, -, site, op, -, hreturns, -⟩
        · exact ih.run hsite hinside hrun
        · rw [hsite] at hreturns
          cases hreturns
      | host callee receiver args slot next =>
        obtain ⟨site, hcalls⟩ := hstep
        obtain ⟨m₂, r, hperform, hresume⟩ := Outcome.andThen_eq_done hrun
        have hsame := ih.perform (tidy_callHost henv m₁ callee receiver args) hperform
        have hback := (sameFooting_collectIfNeeded m).trans (hcalls.leaveHost hsame)
        cases r with
        | error e =>
          cases hresume
          exact (h.of_sameFooting hback).rests.of_sameFooting (sameFooting_noteFailure _ _ _)
        | ok v =>
          have hput : m₂.leaveHost.SameFooting (m₂.leaveHost.putResult slot v) := .of_eq rfl rfl
          exact ih.run hsite ((h.of_sameFooting hback).of_sameFooting hput) hresume

theorem RunsFoot.execute_succ {budget : Nat} (ih : RunsFoot env budget) {start : Nat} {receiver : Value}
    {args : List Value} {result : Except Error Value}
    (h : Machine.execute env m start receiver args (budget + 1) = .done n result) : m.SameFooting n := by
  obtain ⟨frame, hsite, hcall⟩ := inCall_enterExecution m receiver args
  rw [Machine.execute_succ] at h
  split at h
  · cases h
    exact hcall.rests.leaveExecution _ _
  · obtain ⟨l, r, hrun, hend⟩ := Outcome.andThen_eq_done h
    cases hend
    exact (ih.run hsite hcall hrun).leaveExecution _ _

theorem RunsFoot.hostCall (henv : env.Steady) {budget : Nat} (ih : RunsFoot env budget) {callee receiver : Value}
    {args : List Value} {result : Except Error Value}
    (h : Machine.hostCall env m callee receiver args budget = .done n result) : m.SameFooting n := by
  obtain ⟨l, r, hperform, hend⟩ := Outcome.andThen_eq_done h
  cases hend
  have hsame := ih.perform (tidy_callHost henv (m.enterHostCall callee receiver args) callee receiver args) hperform
  exact ⟨hsame.returns, hsame.loops⟩

theorem RunsFoot.callValue_succ (henv : env.Steady) {budget : Nat} (ih : RunsFoot env budget)
    {callee receiver : Value} {args : List Value} {result : Except Error Value}
    (h : Machine.callValue env m callee receiver args (budget + 1) = .done n result) : m.SameFooting n := by
  rw [Machine.callValue_succ] at h
  split at h
  · exact ih.execute h
  · exact ih.hostCall henv h
  · exact ih.hostCall henv h
  · cases h
    exact .refl m

theorem RunsFoot.perform_succ (henv : env.Steady) {budget : Nat} (ih : RunsFoot env budget) {a : Action W Value}
    (ha : a.Tidy m) {result : Except Error Value} (h : Machine.perform env a (budget + 1) = .done n result) :
    m.SameFooting n := by
  cases a with
  | done m₁ r =>
    cases h
    exact .of_skeleton ha.toKept.skeleton
  | needsFile path => cases h
  | call m₁ callee receiver args next =>
    obtain ⟨honward, -, hnext⟩ := ha
    rw [perform_call] at h
    obtain ⟨m₂, r, hcall, hrest⟩ := Outcome.andThen_eq_done h
    have hsame : m₁.SameFooting m₂ := by
      cases callee with
      | code start => exact ih.execute hcall
      | value v => exact ih.callValue hcall
    have hgrows := (runsGrow henv budget).callCallee hcall
    exact (SameFooting.of_skeleton honward.toKept.skeleton).trans (hsame.trans (ih.perform (hnext m₂ r hgrows) hrest))

/-- Whatever code runs, and however it ends, it leaves the calls and loops that it found. -/
theorem runsFoot (henv : env.Steady) (budget : Nat) : RunsFoot env budget := by
  induction budget with
  | zero =>
    exact ⟨(fun _ _ h => by cases h), (fun h => by cases h), (fun h => by cases h), fun _ h => by cases h⟩
  | succ budget ih =>
    exact ⟨ih.run_succ henv, ih.execute_succ, ih.callValue_succ henv, fun ha h => ih.perform_succ henv ha h⟩

end Machine

end ScriptEngine
