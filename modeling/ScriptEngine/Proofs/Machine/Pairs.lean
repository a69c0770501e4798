import ScriptEngine.Proofs.Heap.PairedCollection
import ScriptEngine.Proofs.Machine.Strokes
/-!
Machines that hold the same.

Two machines are `Paired` when their heaps are, the values on their stacks stand for each other place by
place, and nothing else tells them apart but how they make room for cells and strings. Work is `Alike` when
it does the same on paired machines: it ends in results that stand for each other, or with the same error,
and leaves paired machines, as long as these fit what handles can name. The statements follow the operations
of a machine.
-/

namespace ScriptEngine

namespace Pairing

/-- Frames that go back to the same, with receivers that stand for each other. -/
structure Frames (p : Pairing) (f f' : Frame) : Prop where
  receiver : p.Values f.receiver f'.receiver
  callSite : f'.callSite = f.callSite
  scopes : f'.scopes = f.scopes
  loops : f'.loops = f.loops
  resultSlot : f'.resultSlot = f.resultSlot

/-- Pending calls of the same slot, with receivers that stand for each other. -/
structure Calls (p : Pairing) (c c' : PendingCall) : Prop where
  receiver : p.Values c.receiver c'.receiver
  calleeSlot : c'.calleeSlot = c.calleeSlot

theorem Frames.mono {p q : Pairing} {f f' : Frame} (h : p.Frames f f') (hle : p.Le q) : q.Frames f f' :=
  { h with receiver := h.receiver.mono hle }

theorem Calls.mono {p q : Pairing} {c c' : PendingCall} (h : p.Calls c c') (hle : p.Le q) : q.Calls c c' :=
  { h with receiver := h.receiver.mono hle }

end Pairing

namespace Machine

open Heap (Same)

variable {W α β γ δ : Type} {p q : Pairing} {m m' : Machine W} {v v' w w' : Value}

/-- A machine without its values, its heap, and what says how to make room. -/
def shell (m : Machine W) : Machine W :=
  { m with
    options := { placeholderWidth := m.options.placeholderWidth }
    heap := .empty {}
    stack := #[]
    frames := #[]
    pending := #[]
    scopes := #[]
    receiver := .undefined
    lastHolder := .undefined }

/-- Machines that differ in how they make room only. Nothing is pinned or registered. -/
structure Paired (p : Pairing) (m m' : Machine W) : Prop where
  heap : Heap.Paired p m.heap m'.heap
  stack : Rows p.Values m.stack m'.stack
  frames : Rows p.Frames m.frames m'.frames
  pending : Rows p.Calls m.pending m'.pending
  scopes : Rows p.Values m.scopes m'.scopes
  receiver : p.Values m.receiver m'.receiver
  lastHolder : p.Values m.lastHolder m'.lastHolder
  shell : m'.shell = m.shell
  roots : m.roots = .empty
  callbacks : m.callbacks = .empty

namespace Paired

/-- What the shells of machines have in common the machines have. -/
theorem shared {ι : Type} (H : Paired p m m') (f : Machine W → ι) (hf : ∀ n : Machine W, f n.shell = f n) :
    f m' = f m := by
  rw [← hf m', ← hf m, H.shell]

theorem program (H : Paired p m m') : m'.program = m.program := H.shared Machine.program fun _ => rfl

theorem loops (H : Paired p m m') : m'.loops = m.loops := H.shared Machine.loops fun _ => rfl

theorem world (H : Paired p m m') : m'.world = m.world := H.shared Machine.world fun _ => rfl

theorem output (H : Paired p m m') : m'.output = m.output := H.shared Machine.output fun _ => rfl

theorem width (H : Paired p m m') : m'.options.placeholderWidth = m.options.placeholderWidth :=
  H.shared (fun n => n.options.placeholderWidth) fun _ => rfl

theorem callbacks' (H : Paired p m m') : m'.callbacks = .empty :=
  (H.shared Machine.callbacks fun _ => rfl).trans H.callbacks

/-- Another heap, with everything that stood for something before. -/
theorem withHeap (H : Paired p m m') (hle : p.Le q) {k k' : Heap} (hheap : Heap.Paired q k k') :
    Paired q { m with heap := k } { m' with heap := k' } where
  heap := hheap
  stack := H.stack.imp fun _ _ h => h.mono hle
  frames := H.frames.imp fun _ _ h => h.mono hle
  pending := H.pending.imp fun _ _ h => h.mono hle
  scopes := H.scopes.imp fun _ _ h => h.mono hle
  receiver := H.receiver.mono hle
  lastHolder := H.lastHolder.mono hle
  shell := H.shell
  roots := H.roots
  callbacks := H.callbacks

end Paired

/-- Work that frees nothing. -/
class Growing (work : Work W α) : Prop where
  grows : ∀ m : Machine W, m.heap.Grows (leftBy (work m)).heap

/-- Work that frees nothing and leaves the calls alone. -/
class Calm (work : Work W α) : Prop extends Growing work where
  frames : ∀ m : Machine W, (leftBy (work m)).frames = m.frames

/-- Work that does the same on machines that hold the same, as long as these fit. -/
structure Alike (p : Pairing) (R : Pairing → α → β → Prop) (work : Work W α) (work' : Work W β) : Prop where
  meets : ∀ {q}, p.Le q → ∀ {m m' : Machine W}, Paired q m m' →
    (leftBy (work m)).heap.Fits → (leftBy (work' m')).heap.Fits →
      ∃ r, q.Le r ∧ Paired r (leftBy (work m)) (leftBy (work' m')) ∧ Ends (R r) (work m) (work' m')

/-! ## Making work -/

theorem calm_of {work : Work W α} (grows : ∀ m : Machine W, m.heap.Grows (leftBy (work m)).heap)
    (frames : ∀ m : Machine W, (leftBy (work m)).frames = m.frames) : Calm work :=
  { grows, frames }

instance calm_pure (a : α) : Calm (pure a : Work W α) := calm_of (fun _ => .refl _) fun _ => rfl

instance calm_throw (e : Error) : Calm (throw e : Work W α) := calm_of (fun _ => .refl _) fun _ => rfl

instance growing_bind (work : Work W α) (next : α → Work W β) [Growing work] [∀ a, Growing (next a)] :
    Growing (work >>= next) := by
  refine ⟨fun m => ?_⟩
  have hgrows : m.heap.Grows (leftBy (work m)).heap := Growing.grows m
  rw [bind_eq]
  generalize work m = r at hgrows ⊢
  cases r with
  | ok a n => exact hgrows.trans (Growing.grows n)
  | error e n => exact hgrows

instance calm_bind (work : Work W α) (next : α → Work W β) [Calm work] [∀ a, Calm (next a)] :
    Calm (work >>= next) := by
  refine calm_of Growing.grows fun m => ?_
  have hframes : (leftBy (work m)).frames = m.frames := Calm.frames m
  rw [bind_eq]
  generalize work m = r at hframes ⊢
  cases r with
  | ok a n => exact (Calm.frames n).trans hframes
  | error e n => exact hframes

instance calm_ite (c : Prop) [Decidable c] (work work' : Work W α) [Calm work] [Calm work'] :
    Calm (if c then work else work') := by
  split <;> infer_instance

theorem calm_same {work : Work W α} (h : ∀ m, leftBy (work m) = m) : Calm work :=
  calm_of (fun m => by rw [h]; exact .refl _) fun m => by rw [h]

instance calm_inspect (look : Machine W → Except Error α) : Calm (inspect look) :=
  calm_same fun m => by
    unfold inspect
    split <;> rfl

instance calm_ofExcept (x : Except Error α) : Calm (ofExcept x : Work W α) :=
  calm_same fun m => by cases x <;> rfl

theorem calm_onHeap {f : EStateM Error Heap α} (h : ∀ heap : Heap, heap.Grows (leftBy (f heap))) :
    Calm (onHeap f : Work W α) := by
  refine calm_of (fun m => ?_) fun m => ?_
  · have hgrows := h m.heap
    unfold onHeap
    cases hf : f m.heap <;> rw [hf] at hgrows <;> exact hgrows
  · unfold onHeap
    cases f m.heap <;> rfl

theorem Alike.mono {R : Pairing → α → β → Prop} {work : Work W α} {work' : Work W β} (h : Alike p R work work')
    (hle : p.Le q) : Alike q R work work' :=
  ⟨fun hle' => h.meets (hle.trans hle')⟩

/-- Work that leaves machines as they are. -/
theorem alike_look {R : Pairing → α → β → Prop} {work : Work W α} {work' : Work W β}
    (hsame : ∀ m, leftBy (work m) = m) (hsame' : ∀ m, leftBy (work' m) = m)
    (h : ∀ {q}, p.Le q → ∀ {m m' : Machine W}, Paired q m m' → Ends (R q) (work m) (work' m')) :
    Alike p R work work' := by
  refine ⟨fun {q} hle {m m'} H _ _ => ?_⟩
  refine ⟨q, .refl q, ?_, h hle H⟩
  rw [hsame, hsame']
  exact H

theorem alike_pure {R : Pairing → α → β → Prop} {a : α} {b : β} (h : ∀ {q}, p.Le q → R q a b) :
    Alike p R (pure a : Work W α) (pure b) :=
  alike_look (fun _ => rfl) (fun _ => rfl) fun hle _ _ _ => .ok (h hle)

theorem alike_throw {R : Pairing → α → β → Prop} (e : Error) :
    Alike p R (throw e : Work W α) (throw e : Work W β) :=
  alike_look (fun _ => rfl) (fun _ => rfl) fun _ _ _ _ => .error e

theorem alike_bind {R : Pairing → α → β → Prop} {S : Pairing → γ → δ → Prop} {work : Work W α} {work' : Work W β}
    {next : α → Work W γ} {next' : β → Work W δ} [∀ a, Growing (next a)] [∀ b, Growing (next' b)]
    (h : Alike p R work work')
    (hnext : ∀ {q}, p.Le q → ∀ {a b}, R q a b → Alike q S (next a) (next' b)) :
    Alike p S (work >>= next) (work' >>= next') := by
  refine ⟨fun {q} hle {m m'} H hfits hfits' => ?_⟩
  have hwork := h.meets hle H
  rw [bind_eq] at hfits hfits' ⊢
  rw [bind_eq]
  -- What comes next frees nothing, so that the machines in between fit as well.
  generalize work m = r, work' m' = r' at hwork hfits hfits' ⊢
  have hbetween : (leftBy r).heap.Fits := by
    cases r with
    | ok a n => exact (Growing.grows n).fits hfits
    | error e n => exact hfits
  have hbetween' : (leftBy r').heap.Fits := by
    cases r' with
    | ok b n' => exact (Growing.grows n').fits hfits'
    | error e n' => exact hfits'
  obtain ⟨s, hs, hpaired, hends⟩ := hwork hbetween hbetween'
  cases hends with
  | ok hab =>
    obtain ⟨t, ht, hpaired', hends'⟩ := (hnext (hle.trans hs) hab).meets (.refl s) hpaired hfits hfits'
    exact ⟨t, hs.trans ht, hpaired', hends'⟩
  | error e => exact ⟨s, hs, hpaired, .error e⟩

theorem alike_inspect {R : Pairing → α → β → Prop} {look : Machine W → Except Error α}
    {look' : Machine W → Except Error β}
    (h : ∀ {q}, p.Le q → ∀ {m m' : Machine W}, Paired q m m' → ResultLike (R q) (look m) (look' m')) :
    Alike p R (inspect look) (inspect look') := by
  refine alike_look (fun m => ?_) (fun m => ?_) fun hle m m' H => ?_
  · unfold inspect
    split <;> rfl
  · unfold inspect
    split <;> rfl
  · have hlook := h hle H
    unfold inspect
    generalize look m = x, look' m' = x' at hlook ⊢
    cases hlook with
    | ok h => exact .ok h
    | error e => exact .error e

theorem alike_ofExcept {R : Pairing → α → β → Prop} {x : Except Error α} {y : Except Error β}
    (h : ∀ {q}, p.Le q → ResultLike (R q) x y) : Alike p R (ofExcept x : Work W α) (ofExcept y) :=
  alike_look (fun _ => by cases x <;> rfl) (fun _ => by cases y <;> rfl) fun hle _ _ _ => by
    have hresult := h hle
    cases hresult with
    | ok hab => exact .ok hab
    | error e => exact .error e

theorem alike_onHeap {R : Pairing → α → β → Prop} {f : EStateM Error Heap α} {f' : EStateM Error Heap β}
    (h : ∀ {q}, p.Le q → ∀ {heap heap' : Heap}, heap.Paired q heap' → (leftBy (f heap)).Fits →
      (leftBy (f' heap')).Fits → Heap.Meets q R (f heap) (f' heap')) :
    Alike p R (onHeap f : Work W α) (onHeap f') := by
  refine ⟨fun {q} hle {m m'} H hfits hfits' => ?_⟩
  have hmeets := h hle H.heap
  unfold onHeap at hfits hfits' ⊢
  generalize f m.heap = r, f' m'.heap = r' at hmeets hfits hfits' ⊢
  have hbetween : (leftBy r).Fits := by cases r <;> exact hfits
  have hbetween' : (leftBy r').Fits := by cases r' <;> exact hfits'
  obtain ⟨s, hs, hheap, hends⟩ := hmeets hbetween hbetween'
  cases hends with
  | ok hab => exact ⟨s, hs, H.withHeap hs hheap, .ok hab⟩
  | error e => exact ⟨s, hs, H.withHeap hs hheap, .error e⟩

/-- A change of what is not on the heap. -/
theorem alike_modify {f f' : Machine W → Machine W}
    (h : ∀ {q}, p.Le q → ∀ {m m' : Machine W}, Paired q m m' → Paired q (f m) (f' m')) :
    Alike p Same (modify f : Work W Unit) (modify f') :=
  ⟨fun hle _ _ H _ _ => ⟨_, .refl _, h hle H, .ok rfl⟩⟩

/-! ## Stacks -/

theorem calm_stacks {work : Work W α} (hheap : ∀ m, (leftBy (work m)).heap = m.heap)
    (hframes : ∀ m, (leftBy (work m)).frames = m.frames) : Calm work :=
  calm_of (fun m => by rw [hheap]; exact .refl _) hframes

instance calm_push (v : Value) : Calm (push v : Work W Unit) := calm_stacks (fun _ => rfl) fun _ => rfl

instance calm_pop : Calm (pop : Work W Value) :=
  calm_stacks (fun m => by unfold pop; split <;> rfl) fun m => by unfold pop; split <;> rfl

instance calm_peek (places : Nat) : Calm (peek places : Work W Value) :=
  calm_same fun m => by unfold peek; split <;> rfl

instance calm_replaceTop (v : Value) : Calm (replaceTop v : Work W Unit) :=
  calm_stacks (fun m => by unfold replaceTop; split <;> rfl) fun m => by unfold replaceTop; split <;> rfl

instance calm_topScope : Calm (topScope : Work W Value) :=
  calm_same fun m => by unfold topScope; split <;> rfl

instance calm_swapTop : Calm (swapTop : Work W Unit) :=
  calm_stacks (fun m => by unfold swapTop; split <;> rfl) fun m => by unfold swapTop; split <;> rfl

/-- Another value stack, with everything else as it was. -/
theorem Paired.withStack (H : Paired p m m') {stack stack' : Array Value} (h : Rows p.Values stack stack') :
    Paired p { m with stack := stack } { m' with stack := stack' } :=
  { H with stack := h, shell := H.shell }

theorem alike_push (hv : p.Values v v') : Alike p Same (push v : Work W Unit) (push v') :=
  alike_modify fun hle _ _ H => H.withStack (H.stack.push (hv.mono hle))

theorem alike_pop : Alike p Pairing.Values (pop : Work W Value) pop := by
  refine ⟨fun {q} hle {m m'} H _ _ => ?_⟩
  have hback := H.stack.back?
  unfold pop
  generalize m.stack.back? = x, m'.stack.back? = x' at hback ⊢
  cases hback with
  | none => exact ⟨q, .refl q, H, .error _⟩
  | some hv => exact ⟨q, .refl q, H.withStack H.stack.pop, .ok hv⟩

theorem Paired.below? (H : Paired p m m') (places : Nat) :
    Option.Rel p.Values (m.below? places) (m'.below? places) := by
  unfold Machine.below?
  rw [H.stack.size_eq]
  split
  · exact H.stack.getElem? _
  · exact .none

theorem alike_peek (places : Nat) : Alike p Pairing.Values (peek places : Work W Value) (peek places) := by
  refine ⟨fun {q} hle {m m'} H _ _ => ?_⟩
  have hbelow := H.below? places
  unfold peek
  generalize m.below? places = x, m'.below? places = x' at hbelow ⊢
  cases hbelow with
  | none => exact ⟨q, .refl q, H, .error _⟩
  | some hv => exact ⟨q, .refl q, H, .ok hv⟩

theorem alike_replaceTop (hv : p.Values v v') : Alike p Same (replaceTop v : Work W Unit) (replaceTop v') := by
  refine ⟨fun {q} hle {m m'} H _ _ => ?_⟩
  unfold replaceTop
  have hempty : m'.stack.isEmpty = m.stack.isEmpty := by simp only [Array.isEmpty, H.stack.size_eq]
  rw [hempty, H.stack.size_eq]
  split
  · exact ⟨q, .refl q, H, .error _⟩
  · exact ⟨q, .refl q, H.withStack (H.stack.set _ (hv.mono hle)), .ok rfl⟩

theorem alike_topScope : Alike p Pairing.Values (topScope : Work W Value) topScope := by
  refine ⟨fun {q} hle {m m'} H _ _ => ?_⟩
  have hback := H.scopes.back?
  unfold topScope
  generalize m.scopes.back? = x, m'.scopes.back? = x' at hback ⊢
  cases hback with
  | none => exact ⟨q, .refl q, H, .error _⟩
  | some hv => exact ⟨q, .refl q, H, .ok hv⟩

theorem alike_swapTop : Alike p Same (swapTop : Work W Unit) swapTop := by
  refine ⟨fun {q} hle {m m'} H _ _ => ?_⟩
  have hfirst := H.below? 0
  have hsecond := H.below? 1
  unfold swapTop
  generalize m.below? 0 = x, m'.below? 0 = x' at hfirst ⊢
  generalize m.below? 1 = y, m'.below? 1 = y' at hsecond ⊢
  cases hfirst with
  | none => exact ⟨q, .refl q, H, .error _⟩
  | some ha =>
    cases hsecond with
    | none => exact ⟨q, .refl q, H, .error _⟩
    | some hb => exact ⟨q, .refl q, H.withStack ((H.stack.pop.pop.push ha).push hb), .ok rfl⟩

/-! ## The heap -/

instance calm_allocString (bytes : List UInt8) : Calm (allocString bytes : Work W Value) :=
  calm_onHeap fun h => h.grows_newString bytes

instance calm_lend (lender : Lender) (bytes : List UInt8) :
    Calm (onHeap fun h => h.lendString lender bytes : Work W Value) :=
  calm_onHeap fun h => h.grows_lendString lender bytes

instance calm_setOwn (id : ObjectId) (key v : Value) : Calm (onHeap fun h => h.set id key v : Work W Unit) :=
  calm_onHeap fun h => h.grows_set id key v

instance calm_arraySet (id : ObjectId) (i : Nat) (v : Value) :
    Calm (onHeap fun h => h.arraySet id i v : Work W Unit) :=
  calm_onHeap fun h => h.grows_modifyItems id _

instance calm_modifyItems (id : ObjectId) (f : Array Value → Array Value) :
    Calm (onHeap fun h => h.modifyItems id f : Work W Unit) :=
  calm_onHeap fun h => h.grows_modifyItems id f

instance calm_setByte (id : ObjectId) (i shown : Nat) (b : UInt8) :
    Calm (onHeap fun h => h.setByte id i shown b : Work W Unit) :=
  calm_onHeap fun h => h.grows_setByte id i shown b

theorem calm_alloc {make : Heap → Heap × Value} (h : ∀ heap : Heap, heap.Grows (make heap).1) :
    Calm (alloc make : Work W Value) :=
  calm_of (fun m => h m.heap) fun _ => rfl

instance calm_newObject : Calm (alloc Heap.newObject : Work W Value) := calm_alloc fun h => h.grows_newCell _

instance calm_newArray (items : List Value) : Calm (alloc fun h => h.newArray items : Work W Value) :=
  calm_alloc fun h => h.grows_newCell _

instance calm_allocBuffer (bytes : Bytes) : Calm (alloc fun h => h.newBuffer bytes : Work W Value) :=
  calm_alloc fun h => h.grows_newCell _

instance calm_allocView (id : ObjectId) (offset length : Nat) :
    Calm (alloc fun h => h.newView id offset length : Work W Value) :=
  calm_alloc fun h => h.grows_newCell _

theorem alike_allocString (bytes : List UInt8) :
    Alike p Pairing.Values (allocString bytes : Work W Value) (allocString bytes) :=
  alike_onHeap fun _ _ _ H hfits hfits' => H.newString bytes hfits hfits'

theorem alike_lend (lender : Lender) (bytes : List UInt8) :
    Alike p Pairing.Values (onHeap fun h => h.lendString lender bytes : Work W Value)
      (onHeap fun h => h.lendString lender bytes) :=
  alike_onHeap fun _ _ _ H hfits hfits' => H.lendString lender bytes hfits hfits'

theorem alike_setOwn {id id' : ObjectId} (hid : p.objects id id') (hkey : p.Values v v') (hvalue : p.Values w w') :
    Alike p Same (onHeap fun h => h.set id v w : Work W Unit) (onHeap fun h => h.set id' v' w') :=
  alike_onHeap fun hle _ _ H hfits hfits' =>
    H.set (hle.objects hid) (hkey.mono hle) (hvalue.mono hle) hfits hfits'

/-- A new object, with a kind that stands for the other. -/
theorem alike_newCell {kind kind' : ObjectKind} (hkind : p.Kinds kind kind') {wrap wrap' : ObjectId → Value}
    (hwrap : ∀ {q : Pairing} {id id' : ObjectId}, q.objects id id' → q.Values (wrap id) (wrap' id')) :
    Alike p Pairing.Values
      (alloc fun h => ((h.newCell kind).1, wrap (h.newCell kind).2) : Work W Value)
      (alloc fun h => ((h.newCell kind').1, wrap' (h.newCell kind').2)) := by
  refine ⟨fun {q} hle {m m'} H hfits hfits' => ?_⟩
  exact ⟨_, q.le_withObject _ _, H.withHeap (q.le_withObject _ _) (H.heap.newCell (hkind.mono hle) hfits hfits'),
    .ok (hwrap (.inr ⟨rfl, rfl⟩))⟩

theorem alike_newObject : Alike p Pairing.Values (alloc Heap.newObject : Work W Value) (alloc Heap.newObject) :=
  alike_newCell .plain .object

theorem alike_newArray : Alike p Pairing.Values (alloc fun h => h.newArray [] : Work W Value)
    (alloc fun h => h.newArray []) :=
  alike_newCell (.array .empty) .array

/-! ## Properties -/

instance calm_keyString (key : Value) : Calm (keyString key : Work W Value) := by
  unfold keyString
  infer_instance

instance calm_setNamed (id : ObjectId) (key v : Value) : Calm (setNamed id key v : Work W Unit) := by
  unfold setNamed
  infer_instance

theorem alike_textOf (hv : p.Values v v') :
    Alike p Same (inspect fun m : Machine W => m.heap.textOf v) (inspect fun m => m.heap.textOf v') :=
  alike_inspect fun hle _ _ H => by
    rw [H.heap.textOf_eq (hv.mono hle)]
    generalize Heap.textOf _ _ = x
    cases x with
    | ok bytes => exact .ok rfl
    | error e => exact .error e

theorem alike_keyString (hkey : p.Values v v') : Alike p Pairing.Values (keyString v : Work W Value) (keyString v') := by
  unfold keyString
  rw [hkey.isString_eq]
  split
  · exact alike_pure hkey.mono
  · refine alike_bind (alike_textOf hkey) ?_
    rintro q hle a b rfl
    exact alike_allocString _

theorem alike_setNamed {id id' : ObjectId} (hid : p.objects id id') (hkey : p.Values v v') (hvalue : p.Values w w') :
    Alike p Same (setNamed id v w : Work W Unit) (setNamed id' v' w') :=
  alike_bind (alike_keyString hkey) fun hle _ _ hkey' => alike_setOwn (hle.objects hid) hkey' (hvalue.mono hle)

end Machine

end ScriptEngine
