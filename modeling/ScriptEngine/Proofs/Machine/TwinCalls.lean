import ScriptEngine.Proofs.Machine.Reachable
import ScriptEngine.Proofs.Machine.TwinActions
/-!
Functions outside of the code, on two machines that are alike.

The functions that every machine has take no notice of offsets, and calls of native code do so as far as
the host does. Both are met by one statement on whatever a call instruction can call (`Like.callHost`).
-/

namespace ScriptEngine

open Code (Atlas)

namespace Machine

variable {W : Type} {A : Atlas} {w w' : Nat} {m m' : Machine W} {env : Embedding W}

/-! ## Functions of every machine -/

theorem Crowded.of_program {n : Machine W} (hsame : n.program = m.program) (h : m.Crowded) : n.Crowded := by
  rwa [Crowded, hsame]

theorem uniform_die : Uniform (W := W) fun _ args => die args :=
  fun _ _ args => parallel_die args

theorem uniform_collectNow : Uniform (W := W) fun _ args => collectNow args :=
  fun _ _ args => parallel_collectNow args

theorem uniform_ffi (env : Embedding W) : Uniform fun _ args => ffi env args :=
  fun _ _ args => parallel_ffi env args

theorem uniform_freeCallback : Uniform (W := W) fun _ args => freeCallback args :=
  fun _ _ args => parallel_freeCallback args

theorem uniform_newBuffer : Uniform (W := W) fun _ args => newBuffer args :=
  fun _ _ args => parallel_newBuffer args

theorem uniform_newView : Uniform (W := W) fun _ args => newView args :=
  fun _ _ args => parallel_newView args

theorem uniform_pushItems : Uniform (W := W) pushItems :=
  fun _ receiver args => parallel_pushItems receiver args

theorem uniform_slice : Uniform (W := W) slice :=
  fun _ receiver args => parallel_slice receiver args

theorem uniform_toText : Uniform (W := W) fun receiver _ => toText receiver :=
  fun _ receiver _ => parallel_toText receiver

theorem Like.textArg (h : Like A w w' m m') {args args' : List Value}
    (hargs : List.Forall₂ (ValueLike A) args args') (i : Nat) (function : String) :
    textArg m'.heap args' i function = textArg m.heap args i function := by
  obtain ⟨M, hM, rfl⟩ := h.exists_move
  rw [ValueLike.map_eq hargs hM, Move.heap_machine, textArg_value]

theorem ValueLike.arg {args args' : List Value} (hargs : List.Forall₂ (ValueLike A) args args') (i : Nat) :
    ValueLike A (arg args i) (arg args' i) := by
  induction hargs generalizing i with
  | nil => exact .same fun start heq => by simp [Machine.arg] at heq
  | cons hfirst hrest ih =>
    cases i with
    | zero => exact hfirst
    | succ i => exact ih i

theorem Like.argumentsOf (h : Like A w w' m m') {v v' : Value} (hv : ValueLike A v v') :
    ResultLike (List.Forall₂ (ValueLike A)) (m.argumentsOf v) (m'.argumentsOf v') := by
  have hall {M : Move} (hM : M.Fits A) : m'.argumentsOf v' = (m.argumentsOf v).map (List.map M.value) := by
    rw [hv.eq hM, h.moved hM]
    exact argumentsOf_machine m v
  obtain ⟨M, hM⟩ := h.describes.exists_fits
  cases hitems : m.argumentsOf v with
  | error e =>
    rw [hall hM, hitems]
    exact .error e
  | ok items =>
    rw [hall hM, hitems]
    refine .ok (h.describes.valuesLike fun {N} hN => ?_)
    have hsame := (hall hM).symm.trans (hall hN)
    rw [hitems] at hsame
    exact Except.ok.inj hsame

theorem Like.applyReceiver (h : Like A w w' m m') {receiver receiver' : Value} {args args' : List Value}
    (hreceiver : ValueLike A receiver receiver') (hargs : List.Forall₂ (ValueLike A) args args') :
    Action.Like w w' ValueLike A (applyReceiver m receiver args) (applyReceiver m' receiver' args') := by
  unfold Machine.applyReceiver
  have hitems := h.argumentsOf (ValueLike.arg hargs 1)
  revert hitems
  generalize m.argumentsOf (Machine.arg args 1) = r
  generalize m'.argumentsOf (Machine.arg args' 1) = r'
  intro hitems
  cases hitems with
  | error e => exact .done (List.prefix_refl A) h (.error e)
  | ok hitems =>
    exact .call (List.prefix_refl A) h (.value hreceiver) (ValueLike.arg hargs 0) hitems
      (fun {C n n' r r'} _ hlike hresult => .done (List.prefix_refl C) hlike hresult) (fun _ _ hn => hn)
      fun _ _ hn => hn

theorem Like.load (h : Like A w w' m m') (henv : env.Respects w w') (hw : w ≤ Code.Emitter.maxWidth)
    (hw' : w' ≤ Code.Emitter.maxWidth) {args args' : List Value} (hargs : List.Forall₂ (ValueLike A) args args') :
    Action.Like w w' ValueLike A (load env m args) (load env m' args') := by
  unfold Machine.load
  rw [h.textArg hargs]
  cases Machine.textArg m.heap args 0 "load" with
  | ok path => exact h.loadFile henv hw hw' path
  | error e => exact .done (List.prefix_refl A) h (.error e)

theorem Like.builtin (h : Like A w w' m m') (henv : env.Respects w w') (hw : w ≤ Code.Emitter.maxWidth)
    (hw' : w' ≤ Code.Emitter.maxWidth) (b : Builtin) {receiver receiver' : Value} {args args' : List Value}
    (hreceiver : ValueLike A receiver receiver') (hargs : List.Forall₂ (ValueLike A) args args') :
    Action.Like w w' ValueLike A (builtin env m b receiver args) (builtin env m' b receiver' args') := by
  have hlook {look look' : Except Error Value}
      (heq : ∀ {M : Move}, m' = M.machine m → receiver' = M.value receiver → args' = args.map M.value →
        look' = look.map M.value) : Action.Like w w' ValueLike A (.done m look) (.done m' look') :=
    h.look fun {M} hM =>
      heq (M := M.towards m') (h.moved hM) (hreceiver.eq (hM.towards m')) (ValueLike.map_eq hargs (hM.towards m'))
  cases b with
  | print => exact Action.like_ofWork (h.printValues hargs)
  | die => exact h.uniform uniform_die hreceiver hargs
  | gc => exact h.uniform uniform_collectNow hreceiver hargs
  | ffi => exact h.uniform (uniform_ffi env) hreceiver hargs
  | freeCallback => exact h.uniform uniform_freeCallback hreceiver hargs
  | arrayBuffer => exact h.uniform uniform_newBuffer hreceiver hargs
  | dataView => exact h.uniform uniform_newView hreceiver hargs
  | load => exact h.load henv hw hw' hargs
  | apply => exact h.applyReceiver hreceiver hargs
  | push => exact h.uniform uniform_pushItems hreceiver hargs
  | charCodeAt =>
    refine hlook fun hm hr ha => ?_
    rw [hm, hr, ha]
    exact charCodeAt_value m.heap receiver args
  | indexOf =>
    refine hlook fun hm hr ha => ?_
    rw [hm, hr, ha]
    exact indexOf_value m.heap receiver args
  | slice => exact h.uniform uniform_slice hreceiver hargs
  | toText => exact h.uniform uniform_toText hreceiver hargs

theorem crowded_builtin (b : Builtin) (receiver : Value) (args : List Value) (h : m.Crowded) :
    (builtin env m b receiver args).Crowded := by
  have huniform {function : Value → List Value → Work W Value} (hfunction : Uniform function) :
      (Action.ofWork (function receiver args) m).Crowded :=
    Action.crowded_ofQuiet (hfunction.quiet receiver args) h
  cases b with
  | print => exact Action.crowded_ofWork (fun n => by rw [program_printValues]) h
  | die => exact huniform uniform_die
  | gc => exact huniform uniform_collectNow
  | ffi => exact huniform (uniform_ffi env)
  | freeCallback => exact huniform uniform_freeCallback
  | arrayBuffer => exact huniform uniform_newBuffer
  | dataView => exact huniform uniform_newView
  | load =>
    show (load env m args).Crowded
    unfold Machine.load
    split
    · exact crowded_loadFile _ h
    · exact h
  | apply =>
    show (applyReceiver m receiver args).Crowded
    unfold Machine.applyReceiver
    split
    · exact ⟨h, fun _ _ hn => hn⟩
    · exact h
  | push => exact huniform uniform_pushItems
  | charCodeAt | indexOf => exact h
  | slice => exact huniform uniform_slice
  | toText => exact huniform uniform_toText

/-! ## Native code -/

theorem quiet_acceptCall (env : Embedding W) (id : SignatureId) (args : List Value) :
    Quiet (acceptCall env id args) :=
  quiet_of_parallel (f := fun _ call => call) fun n => by
    have hpar := parallel_acceptCall (M := Move.stay n) env id args
    rwa [Move.map_value_stay] at hpar

theorem quiet_toValue (type : Ffi.CType) (a : Ffi.Arg) :
    Quiet (onHeap fun heap => Ffi.Arg.toValue heap type a : Work W Value) :=
  quiet_of_parallel fun n => parallel_toValue (M := Move.stay n) type a

theorem Like.acceptCall (h : Like A w w' m m') (env : Embedding W) (id : SignatureId) {args args' : List Value}
    (hargs : List.Forall₂ (ValueLike A) args args') :
    WorkLike A w w' Eq (acceptCall env id args m) (acceptCall env id args' m') := by
  obtain ⟨M, hM⟩ := h.describes.exists_fits
  refine (h.work (f := fun _ call => call) (fun {N} hN => ?_) (quiet_acceptCall env id args)).imp fun _ _ hall => (hall hM).symm
  rw [ValueLike.map_eq hargs hN]
  exact parallel_acceptCall (M := N.towards m') env id args

theorem Like.toValue (h : Like A w w' m m') (type : Ffi.CType) (a : Ffi.Arg) :
    Action.Like w w' ValueLike A (Action.ofWork (onHeap fun heap => Ffi.Arg.toValue heap type a) m)
      (Action.ofWork (onHeap fun heap => Ffi.Arg.toValue heap type a) m') :=
  have huniform : Uniform (W := W) fun _ _ => onHeap fun heap => Ffi.Arg.toValue heap type a :=
    fun _ _ _ => parallel_toValue type a
  h.uniform huniform (.same (v := .undefined) fun _ heq => by cases heq) .nil

theorem Like.nativeCalls (h : Like A w w' m m') (count : Nat → Nat) :
    Like A w w' { m with nativeCalls := count m.nativeCalls } { m' with nativeCalls := count m'.nativeCalls } :=
  h.change (g := fun n => { n with nativeCalls := count n.nativeCalls })
    (k := fun n => { n with nativeCalls := count n.nativeCalls }) (fun _ _ => rfl) fun _ => ⟨rfl, rfl, rfl⟩

theorem Like.callForeign (h : Like A w w' m m') (henv : env.Respects w w') (id : SignatureId)
    {args args' : List Value} (hargs : List.Forall₂ (ValueLike A) args args') :
    Action.Like w w' ValueLike A (callForeign env m id args) (callForeign env m' id args') := by
  have haccepted := h.acceptCall env id hargs
  unfold Machine.callForeign Action.ofWork
  cases haccept : Machine.acceptCall env id args m with
  | error e n =>
    rw [haccept] at haccepted
    generalize Machine.acceptCall env id args' m' = r' at haccepted
    cases haccepted with
    | error e hlike => exact .done (List.prefix_refl A) hlike (.error e)
  | ok accepted n =>
    rw [haccept] at haccepted
    have hhost := host_of_acceptCall haccept
    generalize Machine.acceptCall env id args' m' = r' at haccepted
    cases haccepted with
    | ok hlike hsame =>
      subst hsame
      refine (henv.host accepted.host hhost accepted.func accepted.args (hlike.nativeCalls (· + 1))).bind
        (fun {B n n' r r'} _ hlike' hresult => ?_) (fun n r hn => ?_) fun n r hn => ?_
      · cases hresult with
        | error e => exact .done (List.prefix_refl B) (hlike'.nativeCalls (· - 1)) (.error e)
        | ok hsame =>
          subst hsame
          exact (hlike'.nativeCalls (· - 1)).toValue _ _
      all_goals
        cases r with
        | error e => exact hn
        | ok a => exact Action.crowded_ofQuiet (quiet_toValue _ a) hn

theorem crowded_callForeign (henv : env.Respects w w') (id : SignatureId) (args : List Value) (h : m.Crowded) :
    (callForeign env m id args).Crowded := by
  have hquiet := quiet_acceptCall env id args m
  unfold Machine.callForeign Action.ofWork
  cases haccept : Machine.acceptCall env id args m with
  | error e n =>
    rw [haccept] at hquiet
    exact Crowded.of_program hquiet.1 h
  | ok accepted n =>
    rw [haccept] at hquiet
    refine (henv.hostCrowded accepted.host (host_of_acceptCall haccept)
      { n with nativeCalls := n.nativeCalls + 1 } accepted.func accepted.args
      (Crowded.of_program hquiet.1 h)).bind fun n r hn => ?_
    cases r with
    | error e => exact hn
    | ok a => exact Action.crowded_ofQuiet (quiet_toValue _ a) hn

/-! ## Whatever a call instruction calls -/

theorem mem_of_native? {id : NativeId} {f : Native W} (h : env.native? id = some f) : f ∈ env.natives := by
  unfold Embedding.native? at h
  split at h
  · exact Array.mem_of_getElem? h
  · cases h

theorem Like.callHost (h : Like A w w' m m') (henv : env.Respects w w') (hw : w ≤ Code.Emitter.maxWidth)
    (hw' : w' ≤ Code.Emitter.maxWidth) {callee callee' receiver receiver' : Value} {args args' : List Value}
    (hcallee : ValueLike A callee callee') (hreceiver : ValueLike A receiver receiver')
    (hargs : List.Forall₂ (ValueLike A) args args') :
    Action.Like w w' ValueLike A (callHost env m callee receiver args) (callHost env m' callee' receiver' args') := by
  cases hcallee with
  | function hknown => exact .done (List.prefix_refl A) h (.error _)
  | same hne =>
    unfold Machine.callHost
    cases callee with
    | native id =>
      dsimp only
      cases Builtin.ofId? id with
      | some b => exact h.builtin henv hw hw' b hreceiver hargs
      | none =>
        dsimp only
        cases hnative : env.native? id with
        | some f => exact henv.natives f (mem_of_native? hnative) h hreceiver hargs
        | none => exact .done (List.prefix_refl A) h (.error _)
    | signature id => exact h.callForeign henv id hargs
    | _ => exact .done (List.prefix_refl A) h (.error _)

theorem crowded_callHost (henv : env.Respects w w') (callee receiver : Value) (args : List Value)
    (h : m.Crowded) : (callHost env m callee receiver args).Crowded := by
  unfold Machine.callHost
  split
  · split
    · exact crowded_builtin _ receiver args h
    · split
      · rename_i hnative
        exact henv.nativesCrowded _ (mem_of_native? hnative) m receiver args h
      · exact h
  · exact crowded_callForeign henv _ args h
  · exact h

end Machine

end ScriptEngine
