import ScriptEngine.Proofs.Machine.MovedFunctions
/-!
Work that leaves the code alone.

`Quiet` work changes neither the program nor the width of jumps nor what was printed. What is parallel to itself
over any code is quiet, since the code could be its own; so all instructions are (`quiet_advance`), and so
is all work of the functions that every machine has, but for printing.
-/

namespace ScriptEngine

/-! ## Moving nothing -/

namespace Renaming

/-- The same offsets. -/
def identity : Renaming := ⟨fun offset => offset, fun _ _ h => h⟩

@[simp] theorem value_identity (v : Value) : identity.value v = v := by
  cases v <;> rfl

theorem map_identity {α : Type} {f : α → α} (h : ∀ a, f a = a) (a : Arena α) : a.map f = a := by
  obtain rfl : f = id := funext h
  simp [Arena.map]

theorem heap_identity (h : Heap) : identity.heap h = h := by
  have hvalue : identity.value = id := funext value_identity
  have hcell (cell : ObjectCell) : identity.cell cell = cell := by
    obtain ⟨properties, kind⟩ := cell
    cases kind with
    | array items => simp [cell, Renaming.kind, hvalue]
    | _ => rfl
  have hproperty (p : Property) : identity.property p = p := by
    simp [property]
  simp only [heap, map_identity hcell, map_identity hproperty]

end Renaming

/-- The move of a machine to where it is. -/
def Move.stay {W : Type} (m : Machine W) : Move :=
  ⟨.identity, id, id, id, m.program, m.output, m.options.placeholderWidth⟩

namespace Move

variable {W : Type} (m : Machine W)

@[simp] theorem value_stay (v : Value) : (stay m).value v = v :=
  Renaming.value_identity v

@[simp] theorem map_value_stay (vs : List Value) : vs.map (stay m).value = vs :=
  (List.map_congr_left fun v _ => value_stay m v).trans vs.map_id

theorem machine_stay : (stay m).machine m = m := by
  have hvalue : (stay m).value = id := funext (value_stay m)
  have hframe : (stay m).frame = id := by
    funext f
    obtain ⟨receiver, site, scopes, loops, slot⟩ := f
    cases site <;> simp [frame, stay, Move.value]
  have hpending : (stay m).pending = id := funext fun c => by simp [pending]
  have hloop : (stay m).loop = id := rfl
  have hroots : m.roots.map id = m.roots := by simp [Roots.map]
  have hcallbacks : m.callbacks.map id = m.callbacks := by
    simp [Ffi.Callbacks.map]
  have hheap : (stay m).functions.heap m.heap = m.heap := Renaming.heap_identity m.heap
  simp only [machine, hvalue, hframe, hpending, hloop, hheap, hroots, hcallbacks, Array.map_id, id]
  rfl

end Move

namespace Machine

variable {W α β : Type}

/-! ## Quiet work -/

/-- Work that changes neither the program nor the width of jumps nor what was printed. -/
def Quiet (work : Work W α) : Prop :=
  ∀ m, (leftBy (work m)).program = m.program
    ∧ (leftBy (work m)).options.placeholderWidth = m.options.placeholderWidth
    ∧ (leftBy (work m)).output = m.output

/-- What works the same over any code leaves its own code alone. -/
theorem quiet_of_parallel {work : Work W α} {f : Machine W → α → α}
    (h : ∀ m, (Move.stay m).Parallel (f m) work work) : Quiet work := by
  intro m
  have hm := h m m
  rw [Move.machine_stay] at hm
  rw [hm]
  cases work m with
  | ok a n => exact ⟨rfl, rfl, rfl⟩
  | error e n => exact ⟨rfl, rfl, rfl⟩

theorem quiet_bind {work : Work W α} {next : α → Work W β} (h : Quiet work) (hnext : ∀ a, Quiet (next a)) :
    Quiet (work >>= next) := by
  intro m
  have hm := h m
  rw [bind_eq]
  cases hwork : work m with
  | error e n =>
    rw [hwork] at hm
    exact hm
  | ok a n =>
    rw [hwork] at hm
    obtain ⟨hprogram, hwidth, houtput⟩ := hnext a n
    exact ⟨hprogram.trans hm.1, hwidth.trans hm.2.1, houtput.trans hm.2.2⟩

theorem quiet_pure (a : α) : Quiet (pure a : Work W α) :=
  fun _ => ⟨rfl, rfl, rfl⟩

theorem quiet_throw (e : Error) : Quiet (throw e : Work W α) :=
  fun _ => ⟨rfl, rfl, rfl⟩

theorem quiet_inspect (look : Machine W → Except Error α) : Quiet (inspect look) := by
  intro m
  unfold inspect
  cases look m <;> exact ⟨rfl, rfl, rfl⟩

theorem quiet_ofExcept (x : Except Error α) : Quiet (ofExcept x : Work W α) := by
  cases x with
  | ok a => exact quiet_pure a
  | error e => exact quiet_throw e

/-! ## Instructions -/

theorem quiet_carryOut (env : Embedding W) (c : Cursor) (i : Code.Instr) (firstEnd next : Nat) :
    Quiet (carryOut env c i firstEnd next) := by
  have hgoOn (pos : Nat) : Quiet (pure (Flow.goOn pos) : Work W Flow) := quiet_pure _
  cases hstraight : i.isStraight with
  | true =>
    exact quiet_of_parallel fun m => parallel_carryOut env rfl hstraight id id firstEnd firstEnd next
  | false =>
    cases i with
    | jmp distance => exact hgoOn _
    | jmpTrue distance | jmpFalse distance =>
      exact quiet_of_parallel fun m => parallel_jumpIf id id _ rfl
    | jmpNeutralTrue distance | jmpNeutralFalse distance =>
      exact quiet_of_parallel fun m => parallel_jumpKeeping id id _ rfl
    | pushFunc back =>
      refine quiet_bind (quiet_ofExcept _) fun v => quiet_bind (quiet_of_parallel (f := fun _ u => u)
        fun m => ?_) fun _ => hgoOn _
      simpa using parallel_push (M := Move.stay m) v
    | call =>
      exact quiet_of_parallel fun m => parallel_callPending c.offset next id
    | «return» => exact quiet_of_parallel fun m => parallel_returnFromCall id
    | loop breakDistance continueDistance =>
      exact quiet_bind (quiet_of_parallel fun m => parallel_openLoop _ _) fun _ => hgoOn _
    | «break» => exact quiet_of_parallel fun m => parallel_breakLoop id
    | «continue» => exact quiet_of_parallel fun m => parallel_continueLoop id
    | header => exact hgoOn _
    | _ => cases hstraight

/-- An instruction leaves the code alone. -/
theorem quiet_advance (env : Embedding W) (c : Cursor) : Quiet (advance env c) := by
  unfold advance
  split
  · refine quiet_bind (quiet_carryOut env c _ _ _) fun flow => ?_
    cases flow with
    | jump offset => exact quiet_bind (quiet_inspect _) fun c => quiet_pure _
    | _ => exact quiet_pure _
  all_goals exact quiet_throw _

end Machine

end ScriptEngine
