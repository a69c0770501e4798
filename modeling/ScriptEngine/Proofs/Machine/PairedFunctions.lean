import ScriptEngine.Proofs.Machine.Collection
import ScriptEngine.Proofs.Machine.Sites
/-!
Collections and the functions of every machine, on machines that hold the same.
-/

namespace ScriptEngine

namespace Machine

open Heap (Same)

variable {W α β : Type} {env : Embedding W} {p q : Pairing} {m m' : Machine W}
  {v v' w w' : Value}

/-! ## Collections -/

theorem Paired.symm (H : Paired p m m') : Paired p.symm m' m where
  heap := H.heap.symm
  stack := List.Forall₂.flip (H.stack.imp fun _ _ h => h.symm)
  frames := List.Forall₂.flip (H.frames.imp fun _ _ h =>
    ⟨h.receiver.symm, h.callSite.symm, h.scopes.symm, h.loops.symm, h.resultSlot.symm⟩)
  pending := List.Forall₂.flip (H.pending.imp fun _ _ h => ⟨h.receiver.symm, h.calleeSlot.symm⟩)
  scopes := List.Forall₂.flip (H.scopes.imp fun _ _ h => h.symm)
  receiver := H.receiver.symm
  lastHolder := H.lastHolder.symm
  shell := H.shell.symm
  roots := (H.shared Machine.roots fun _ => rfl).trans H.roots
  callbacks := H.callbacks'

/-- A value in a slot stands for the one in the other machine's slot. -/
theorem Paired.slot? (H : Paired p m m') (slot : Slot) : Option.Rel p.Values (m.slot? slot) (m'.slot? slot) := by
  have hroots : m'.roots = .empty := H.symm.roots
  cases slot with
  | stack i => exact H.stack.getElem? i
  | scope i => exact H.scopes.getElem? i
  | frame i =>
    have hframe := H.frames.getElem? i
    simp only [Machine.slot?]
    generalize m.frames[i]? = x, m'.frames[i]? = x' at hframe ⊢
    cases hframe with
    | none => exact .none
    | some hframe => exact .some hframe.receiver
  | pending i =>
    have hcall := H.pending.getElem? i
    simp only [Machine.slot?]
    generalize m.pending[i]? = x, m'.pending[i]? = x' at hcall ⊢
    cases hcall with
    | none => exact .none
    | some hcall => exact .some hcall.receiver
  | receiver => exact .some H.receiver
  | lastHolder => exact .some H.lastHolder
  | root i =>
    simp only [Machine.slot?, H.roots, hroots]
    exact .none
  | callbackFunction i | callbackUserdata i =>
    simp only [Machine.slot?, H.callbacks, H.callbacks']
    exact .none

theorem Paired.exists_pair (H : Paired p m m') (hv : v ∈ m.heldValues) : ∃ v', p.Values v v' := by
  obtain ⟨slot, hslot⟩ := mem_heldValues.mp hv
  have hpair := H.slot? slot
  rw [hslot] at hpair
  generalize m'.slot? slot = found at hpair
  cases hpair with
  | some hpair => exact ⟨_, hpair⟩

/-- A collection of one machine leaves it paired with the other. -/
theorem Paired.collect_left (H : Paired p m m') (full : Bool) : ∃ q, Paired q (m.collect full).1 m' := by
  obtain ⟨hheap, hvalues⟩ := H.heap.collect (fun _ => H.exists_pair) full m.options.stringSlack
  rcases hcollected : m.heap.collect m.heldValues full m.options.stringSlack with ⟨heap, moves, stats⟩
  rw [hcollected] at hheap hvalues
  rw [collect_eq m full hcollected]
  generalize Heap.keptPairing p m.heap m.heldValues moves = q at hheap hvalues
  refine ⟨q, ?_⟩
  have hslot {v v' : Value} (slot : Slot) (hv : m.slot? slot = some v) (hpair : p.Values v v') :
      q.Values (StringHeap.relocate moves v) v' := hvalues (mem_heldValues.mpr ⟨slot, hv⟩) hpair
  have hroots : m.roots.map (StringHeap.relocate moves) = m.roots := by
    rw [H.roots]
    simp [Roots.map, Roots.empty]
  have hcallbacks : m.callbacks.map (StringHeap.relocate moves) = m.callbacks := by
    rw [H.callbacks]
    simp [Ffi.Callbacks.map, Ffi.Callbacks.empty]
  have hshell : (({ m with heap := heap } : Machine W).mapHeld (StringHeap.relocate moves)).shell = m.shell := by
    show { m.shell with
      roots := m.roots.map (StringHeap.relocate moves)
      callbacks := m.callbacks.map (StringHeap.relocate moves) } = m.shell
    rw [hroots, hcallbacks]
    rfl
  exact {
    heap := hheap
    stack := Rows.map_left.mpr (H.stack.imp_getElem? fun i x y hx _ hxy => hslot (.stack i) hx hxy)
    frames := Rows.map_left.mpr (H.frames.imp_getElem? fun i x y hx _ hxy =>
      { hxy with receiver := hslot (.frame i) (by rw [Machine.slot?, hx]; rfl) hxy.receiver })
    pending := Rows.map_left.mpr (H.pending.imp_getElem? fun i x y hx _ hxy =>
      { hxy with receiver := hslot (.pending i) (by rw [Machine.slot?, hx]; rfl) hxy.receiver })
    scopes := Rows.map_left.mpr (H.scopes.imp_getElem? fun i x y hx _ hxy => hslot (.scope i) hx hxy)
    receiver := hslot .receiver rfl H.receiver
    lastHolder := hslot .lastHolder rfl H.lastHolder
    shell := H.shell.trans hshell.symm
    roots := hroots.trans H.roots
    callbacks := hcallbacks.trans H.callbacks }

/-- Collections leave machines paired, whichever of them collects. -/
theorem Paired.collect (H : Paired p m m') (full full' : Bool) :
    ∃ q, Paired q (m.collect full).1 (m'.collect full').1 := by
  obtain ⟨q, hq⟩ := H.collect_left full
  obtain ⟨r, hr⟩ := hq.symm.collect_left full'
  exact ⟨r.symm, hr.symm⟩

theorem Paired.collectIfNeeded (H : Paired p m m') : ∃ q, Paired q m.collectIfNeeded m'.collectIfNeeded := by
  have hleft : ∀ {p : Pairing} {m m' : Machine W}, Paired p m m' → ∃ q, Paired q m.collectIfNeeded m' := by
    intro p m m' H
    unfold Machine.collectIfNeeded
    split
    · exact H.collect_left false
    · exact ⟨p, H⟩
  obtain ⟨q, hq⟩ := hleft H
  obtain ⟨r, hr⟩ := hleft hq.symm
  exact ⟨r.symm, hr.symm⟩

theorem sites_collect (m : Machine W) (full : Bool) : (m.collect full).1.sites = m.sites := by
  rcases hcollected : m.heap.collect m.heldValues full m.options.stringSlack with ⟨heap, moves, stats⟩
  rw [collect_eq m full hcollected]
  simp [sites, mapHeld, Function.comp_def]

theorem sites_collectIfNeeded (m : Machine W) : m.collectIfNeeded.sites = m.sites := by
  unfold Machine.collectIfNeeded
  split
  · exact sites_collect m false
  · rfl

/-! ## Arguments -/

section Arguments

variable {args args' : List Value} {h h' : Heap}

theorem rel_arg (hargs : List.Forall₂ p.Values args args') (i : Nat) : p.Values (arg args i) (arg args' i) :=
  .getD (rel_getElem? hargs i)

theorem textArg_eq (H : h.Paired p h') (hargs : List.Forall₂ p.Values args args') (i : Nat) (function : String) :
    textArg h' args' i function = textArg h args i function := by
  unfold textArg
  rw [H.text?_eq (rel_arg hargs i), (rel_arg hargs i).typeName_eq]

theorem sizeArg_eq (hargs : List.Forall₂ p.Values args args') (i : Nat) (what : String) :
    sizeArg args' i what = sizeArg args i what := by
  have harg := rel_arg hargs i
  unfold sizeArg
  generalize arg args i = v, arg args' i = v' at harg ⊢
  cases harg <;> rfl

theorem indexArg?_eq (hargs : List.Forall₂ p.Values args args') (i : Nat) (name : String) :
    indexArg? args' i name = indexArg? args i name := by
  have harg := rel_getElem? hargs i
  unfold indexArg?
  generalize args[i]? = x, args'[i]? = x' at harg ⊢
  cases harg with
  | none => rfl
  | some hv => cases hv <;> rfl

theorem indexArg_eq (hargs : List.Forall₂ p.Values args args') (i : Nat) (name : String) :
    indexArg args' i name = indexArg args i name := by
  unfold indexArg
  rw [indexArg?_eq hargs]

theorem rel_receiverString (hv : p.Values v v') : ResultLike p.Texts (receiverString v) (receiverString v') := by
  cases hv with
  | string hs => exact .ok hs
  | _ => exact .error _

theorem viewRange_eq (hargs : List.Forall₂ p.Values args args') (size : Nat) :
    viewRange args' size = viewRange args size := by
  unfold viewRange
  rw [sizeArg_eq hargs, sizeArg_eq hargs]

/-! ## Functions -/

theorem rel_charCodeAt (H : h.Paired p h') (hv : p.Values v v') (hargs : List.Forall₂ p.Values args args') :
    ResultLike p.Values (charCodeAt h v args) (charCodeAt h' v' args') := by
  have hreceiver := rel_receiverString hv
  unfold charCodeAt
  rw [indexArg_eq hargs]
  generalize receiverString v = x, receiverString v' = x' at hreceiver ⊢
  cases hreceiver with
  | error e => exact .error e
  | @ok s s' hs =>
    cases indexArg args 0 "index" with
    | error e => exact .error e
    | ok index =>
      simp only [bind, Except.bind, H.length_eq hs, H.byte?_eq hs]
      have hplace (place : Int) : ResultLike p.Values
          (if place < 0 then pure .undefined else pure ((h.strings.byte? s place.toNat).elim .undefined byteValue))
          (if place < 0 then pure .undefined else pure ((h.strings.byte? s place.toNat).elim .undefined byteValue)) := by
        split
        · exact .ok .undefined
        · refine .ok ?_
          cases h.strings.byte? s place.toNat with
          | none => exact .undefined
          | some b => exact .ofNat _
      exact hplace _

theorem rel_indexOf (H : h.Paired p h') (hv : p.Values v v') (hargs : List.Forall₂ p.Values args args') :
    ResultLike p.Values (indexOf h v args) (indexOf h' v' args') := by
  have hreceiver := rel_receiverString hv
  have hfirst := rel_getElem? hargs 0
  unfold indexOf
  rw [indexArg?_eq hargs]
  generalize receiverString v = x, receiverString v' = x' at hreceiver ⊢
  generalize args[0]? = y, args'[0]? = y' at hfirst ⊢
  cases hreceiver with
  | error e => exact .error e
  | @ok s s' hs =>
    cases hfirst with
    | none => exact .error _
    | @some w w' hw =>
      simp only [bind, Except.bind, H.text?_eq hw, hw.typeName_eq, H.length_eq hs, H.bytes_eq hs]
      cases h.text? w with
      | none => exact .error _
      | some needle =>
        cases indexArg? args 1 "fromIndex" with
        | error e => exact .error e
        | ok from? =>
          simp only [pure, Except.pure]
          split
          · exact .ok (.ofNat _)
          · exact .ok (.number _)

theorem sliceOf_eq (H : h.Paired p h') (hv : p.Values v v') (hargs : List.Forall₂ p.Values args args') :
    sliceOf h' v' args' = sliceOf h v args := by
  have hreceiver := rel_receiverString hv
  unfold sliceOf
  rw [indexArg_eq hargs, indexArg?_eq hargs]
  generalize receiverString v = x, receiverString v' = x' at hreceiver ⊢
  cases hreceiver with
  | error e => rfl
  | ok hs => simp only [bind, Except.bind, H.length_eq hs, H.between_eq hs]

/-- What is looked at is the same. -/
theorem alike_same {look look' : Machine W → Except Error α}
    (h : ∀ {q}, p.Le q → ∀ {m m' : Machine W}, Paired q m m' → look' m' = look m) :
    Alike p Same (inspect look) (inspect look') :=
  alike_inspect fun hle _ _ H => by
    rw [h hle H]
    generalize look _ = x
    cases x with
    | ok a => exact .ok rfl
    | error e => exact .error e

theorem alike_ofExcept_same (x : Except Error α) : Alike p Same (ofExcept x : Work W α) (ofExcept x) :=
  alike_ofExcept fun _ => by
    cases x with
    | ok a => exact .ok rfl
    | error e => exact .error e

instance calm_writeLine (line : String) : Calm (writeLine line : Work W Unit) :=
  calm_stacks (fun m => by unfold writeLine; split <;> rfl) fun m => by unfold writeLine; split <;> rfl

theorem alike_writeLine (line : String) : Alike p Same (writeLine line : Work W Unit) (writeLine line) := by
  refine ⟨fun {q} hle {m m'} H _ _ => ?_⟩
  unfold writeLine
  rw [H.output]
  cases m.output.broken with
  | some reason => exact ⟨q, .refl q, H, .error _⟩
  | none =>
    refine ⟨q, .refl q, ?_, .ok rfl⟩
    exact { H with
      shell := congrArg (fun n : Machine W =>
        { n with output := { m.output with text := m.output.text ++ line ++ "\n" } }) H.shell }

theorem alike_printValues (hargs : List.Forall₂ p.Values args args') :
    Alike p Pairing.Values (printValues env args) (printValues env args') := by
  refine alike_bind (alike_same fun hle m m' H => ?_) ?_
  · have hshow : ∀ {args args' : List Value}, List.Forall₂ p.Values args args' →
        args'.map (m'.display env) = args.map (m.display env) := by
      intro args args' hargs
      induction hargs with
      | nil => rfl
      | cons hv _ ih => rw [List.map_cons, List.map_cons, ih, Machine.display, Machine.display, H.heap.display_eq _ (hv.mono hle)]
    rw [hshow hargs]
  · rintro q hle _ line rfl
    exact alike_bind (alike_writeLine line) fun _ _ _ _ => alike_pure fun _ => .undefined

theorem alike_die (hargs : List.Forall₂ p.Values args args') :
    Alike p Pairing.Values (die args : Work W Value) (die args') := by
  refine alike_bind (alike_textOf (rel_arg hargs 0)) ?_
  rintro q hle _ bytes rfl
  exact alike_throw _

/-- Without native code there are no foreign functions. -/
theorem resolveForeign_eq (hbare : env.Bare) (text : String) :
    resolveForeign env text
      = (do
        let _ ← ofExcept <| (Ffi.Signature.parse text).mapError fun e =>
          e.toError.within ("bad ffi signature: \"" ++ text ++ "\"")
        throw (.type "resolver is not set")) := by
  unfold resolveForeign Embedding.requireHost
  rw [hbare.host]
  rfl

theorem alike_ffi (hbare : env.Bare) (hargs : List.Forall₂ p.Values args args') :
    Alike p Pairing.Values (ffi env args) (ffi env args') := by
  unfold ffi
  simp only [resolveForeign_eq hbare]
  refine alike_bind (alike_same fun hle _ _ H => textArg_eq H.heap (hargs.imp fun _ _ h => h.mono hle) 0 "ffi") ?_
  rintro q hle _ text rfl
  exact alike_bind (alike_ofExcept_same _) fun _ _ _ _ => alike_throw _

theorem alike_freeCallback (args args' : List Value) :
    Alike p Pairing.Values (freeCallback args : Work W Value) (freeCallback args') := by
  have hnone (func userdata : Value) : Ffi.Callbacks.empty.remove func userdata = (.empty, false) := by
    simp [Ffi.Callbacks.remove, Ffi.Callbacks.slotOf?, Ffi.Callbacks.empty]
  refine alike_modifyGet fun _ m m' H => ?_
  rw [H.callbacks, H.callbacks', hnone, hnone]
  exact ⟨.ofNat _, { H with shell := congrArg (fun n : Machine W => { n with callbacks := .empty }) H.shell, callbacks := rfl }⟩

theorem alike_newBuffer (hargs : List.Forall₂ p.Values args args') :
    Alike p Pairing.Values (newBuffer args : Work W Value) (newBuffer args') := by
  unfold newBuffer
  rw [sizeArg_eq hargs]
  refine alike_bind (alike_ofExcept_same _) ?_
  rintro q hle _ length rfl
  exact alike_newCell (.buffer _) .arrayBuffer

theorem alike_newView (hargs : List.Forall₂ p.Values args args') :
    Alike p Pairing.Values (newView args : Work W Value) (newView args') := by
  have harg := rel_arg hargs 0
  unfold newView
  generalize arg args 0 = v, arg args' 0 = v' at harg ⊢
  cases harg with
  | arrayBuffer hid =>
    refine alike_bind (alike_same fun hle _ _ H => H.heap.buffer_eq (hle.objects hid)) ?_
    rintro q hle _ bytes rfl
    rw [viewRange_eq hargs]
    refine alike_bind (alike_ofExcept_same _) ?_
    rintro r hr _ ⟨offset, length⟩ rfl
    exact alike_newCell (.view ((hle.trans hr).objects hid) offset length) .dataView
  | _ => exact alike_throw _

theorem alike_pushItems (hv : p.Values v v') (hargs : List.Forall₂ p.Values args args') :
    Alike p Pairing.Values (pushItems v args : Work W Value) (pushItems v' args') := by
  cases hv with
  | array hid =>
    refine alike_bind (alike_onHeap fun hle _ _ H hfits hfits' => H.modifyItems (hle.objects hid)
      (fun _ _ hitems => hitems.append (.ofList (hargs.imp fun _ _ h => h.mono hle))) hfits hfits') fun hle _ _ _ => ?_
    refine alike_bind (R := fun q => Rows q.Values) (alike_inspect fun hr _ _ H => H.heap.items ((hle.trans hr).objects hid))
      fun _ _ _ hitems => ?_
    rw [hitems.size_eq]
    exact alike_pure fun _ => .ofNat _
  | _ => exact alike_throw _

theorem alike_slice (hv : p.Values v v') (hargs : List.Forall₂ p.Values args args') :
    Alike p Pairing.Values (slice v args : Work W Value) (slice v' args') := by
  refine alike_bind (alike_same fun hle _ _ H =>
    sliceOf_eq H.heap (hv.mono hle) (hargs.imp fun _ _ h => h.mono hle)) ?_
  rintro q hle _ bytes rfl
  exact alike_allocString bytes

theorem alike_toText (hv : p.Values v v') : Alike p Pairing.Values (toText v : Work W Value) (toText v') := by
  refine alike_bind (alike_textOf hv) ?_
  rintro q hle _ bytes rfl
  exact alike_allocString bytes

theorem rel_argumentsOf (H : Paired p m m') (hv : p.Values v v') :
    ResultLike (List.Forall₂ p.Values) (m.argumentsOf v) (m'.argumentsOf v') := by
  cases hv with
  | @array id id' hid =>
    have hitems := H.heap.items hid
    unfold argumentsOf
    simp only
    generalize m.heap.items id = x, m'.heap.items id' = x' at hitems ⊢
    cases hitems with
    | error e => exact .error e
    | ok hrows => exact .ok hrows
  | undefined => exact .ok .nil
  | _ => exact .error _

end Arguments

end Machine

end ScriptEngine
