import ScriptEngine.Proofs.Machine.Strokes
/-!
What the operations of a machine do to its heap.

Heaps change by single changes and by collections. A relation that allows both, one after the other, is a
`Heap.Course`, and every operation keeps to it: work that is made of strokes does (`Made.abides`), and so does
what collects or reaches the background of a machine. Keeping the order of the heap is such a relation
(`Heap.course_keeps`); work that keeps it is `Tame`.
-/

namespace ScriptEngine

/-- A relation that allows what machines do to their heaps. -/
structure Heap.Course (R : Heap → Heap → Prop) : Prop where
  refl : ∀ h, R h h
  trans : ∀ {h h' h''}, R h h' → R h' h'' → R h h''
  change : ∀ {h h' : Heap}, h.Change h' → R h h'
  collect : ∀ h roots full slack, R h (h.collect roots full slack).1

/-- A single change keeps the order of the heap. -/
theorem Heap.Change.keeps {h h' : Heap} (hchange : h.Change h') : h.Keeps h' := by
  cases hchange with
  | cell kind => exact h.keeps_newCell kind
  | signature f => exact h.keeps_newSignature f
  | string bytes => exact h.keeps_storeString _
  | concat s t => exact h.keeps_storeString _
  | lend lender bytes => exact h.keeps_lendString lender bytes
  | set id key v => exact h.keeps_set id key v
  | delete id key => exact h.keeps_delete id key
  | items id f => exact h.keeps_modifyItems id f
  | byte id index shown b => exact h.keeps_setByte id index shown b

theorem Heap.course_keeps : Course Keeps where
  refl := .refl
  trans := .trans
  change := Change.keeps
  collect := keeps_collect

namespace Machine

variable {W α β : Type} {R : Heap → Heap → Prop}

theorem Strokes.abides (hR : Heap.Course R) {m m' : Machine W} (h : m.Strokes m') : R m.heap m'.heap := by
  induction h with
  | refl => exact hR.refl _
  | tail _ hstroke ih =>
    cases hstroke with
    | heap hchange => exact hR.trans ih (hR.change hchange)
    | besides hheap _ => rwa [hheap]

theorem Strokes.keeps {m m' : Machine W} (h : m.Strokes m') : m.heap.Keeps m'.heap :=
  h.abides Heap.course_keeps

/-- Work that does to the heap what a relation allows, whether it fails or not. -/
def Abides (R : Heap → Heap → Prop) (work : Work W α) : Prop :=
  ∀ m : Machine W, R m.heap (leftBy (work m)).heap

theorem abides_change {f : Machine W → Machine W} (h : ∀ m : Machine W, R m.heap (f m).heap) :
    Abides R (modify f : Work W Unit) := h

theorem heap_collect (m : Machine W) (full : Bool) :
    (m.collect full).1.heap = (m.heap.collect m.heldValues full m.options.stringSlack).1 := by
  unfold collect
  generalize m.heap.collect m.heldValues full m.options.stringSlack = collected
  dsimp only
  split <;> rfl

theorem collectNow_eq (args : List Value) (m : Machine W) :
    collectNow args m = .ok .undefined (m.collect (m.heap.truthy (arg args 0))).1 := rfl

section Abides

variable (hR : Heap.Course R)

include hR

theorem Made.abides {work : Work W α} (h : Made work) : Abides R work :=
  fun m => (h m).abides hR

theorem abides_of_heap {work : Work W α} (h : ∀ m, (leftBy (work m)).heap = m.heap) : Abides R work := by
  intro m
  rw [h m]
  exact hR.refl _

theorem abides_bind {work : Work W α} {next : α → Work W β} (h : Abides R work) (hnext : ∀ a, Abides R (next a)) :
    Abides R (work >>= next) := by
  intro m
  have hm := h m
  rw [bind_eq]
  cases hwork : work m with
  | ok a m' =>
    rw [hwork] at hm
    exact hR.trans hm (hnext a m')
  | error e m' =>
    rw [hwork] at hm
    exact hm

/-! ## Functions that every machine has -/

theorem abides_printValues (env : Embedding W) (args : List Value) : Abides R (printValues env args) := by
  refine abides_bind hR ((made_inspect _).abides hR) fun line =>
    abides_bind hR ?_ fun _ => (made_pure _).abides hR
  refine abides_of_heap hR fun m => ?_
  unfold writeLine
  split <;> rfl

theorem collect_abides (m : Machine W) (full : Bool) : R m.heap (m.collect full).1.heap := by
  rw [heap_collect]
  exact hR.collect m.heap m.heldValues full m.options.stringSlack

theorem abides_collectNow (args : List Value) : Abides R (collectNow args : Work W Value) := by
  intro m
  rw [collectNow_eq]
  dsimp only [leftBy]
  exact collect_abides hR m _

theorem abides_freeCallback (args : List Value) : Abides R (freeCallback args : Work W Value) :=
  fun _ => hR.refl _

/-! ## Native code and code of scripts -/

theorem abides_acceptCall (env : Embedding W) (id : SignatureId) (args : List Value) :
    Abides R (acceptCall env id args) :=
  abides_bind hR ((made_inspect _).abides hR) fun _ => abides_bind hR ((made_inspect _).abides hR) fun _ =>
    abides_bind hR ((made_ofExcept _).abides hR) fun _ => abides_bind hR (abides_of_heap hR fun _ => rfl) fun _ =>
      (made_pure _).abides hR

theorem abides_compileScript (filename source : String) :
    Abides R (compileScript filename source : Work W (Nat × Nat)) := by
  refine abides_bind hR ((made_inspect _).abides hR) fun unit => abides_of_heap hR fun m => ?_
  unfold commit
  split <;> rfl

end Abides

theorem keeps_collect (m : Machine W) (full : Bool) : m.heap.Keeps (m.collect full).1.heap :=
  collect_abides Heap.course_keeps m full

end Machine

end ScriptEngine
