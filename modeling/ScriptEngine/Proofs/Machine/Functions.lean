import Mathlib.Logic.Equiv.Basic
import ScriptEngine.Proofs.Machine.TwinSteps
/-!
The functions that a machine knows.

A machine is `Within` some offsets when renaming functions that start elsewhere changes nothing about it: all
function values in it, wherever they are, start at these. What is done over other code as over its own makes
no functions up, so work that is parallel to itself keeps a machine within the same offsets (`Within.work`).
That goes for every instruction but the one that makes a function (`Within.advance`).
-/

namespace ScriptEngine

/-- A renaming that leaves the functions alone that start at some offsets. -/
def Renaming.Fixes (r : Renaming) (S : Nat → Prop) : Prop :=
  ∀ start : Payload, S start.val → r.offset start = start

/-- If the value is a function, it starts at one of the offsets. -/
def Value.Within (S : Nat → Prop) (v : Value) : Prop :=
  ∀ r : Renaming, r.Fixes S → r.value v = v

/-- The values of a list are within the offsets. -/
def Values.Within (S : Nat → Prop) (vs : List Value) : Prop :=
  ∀ v ∈ vs, v.Within S

/-- The move that only renames functions. -/
def Move.renaming {W : Type} (m : Machine W) (r : Renaming) : Move :=
  { Move.stay m with functions := r }

/-- All functions in the machine start at some offsets: renaming others changes nothing. -/
def Machine.Within {W : Type} (S : Nat → Prop) (m : Machine W) : Prop :=
  ∀ r : Renaming, r.Fixes S → (Move.renaming m r).machine m = m

section Values

variable {S : Nat → Prop}

theorem Value.within_of_ne {v : Value} (h : ∀ start, v ≠ .function start) : v.Within S := by
  intro r _
  cases v with
  | function start => exact absurd rfl (h start)
  | _ => rfl

theorem Value.within_undefined : Value.undefined.Within S :=
  fun _ _ => rfl

theorem Value.within_function {start : Payload} (h : S start.val) : (Value.function start).Within S :=
  fun _ hr => congrArg Value.function (hr start h)

/-- A function that no renaming of others changes starts at one of the offsets, if there are two offsets
besides these. -/
theorem Value.Within.start {start : Payload} (h : (Value.function start).Within S) (hzero : ¬ S 0) (hone : ¬ S 1) :
    S start.val := by
  by_contra hnot
  obtain ⟨other, hother, hne⟩ : ∃ other : Payload, ¬ S other.val ∧ other ≠ start := by
    by_cases heq : start.val = 0
    · exact ⟨⟨1, by decide⟩, hone, fun h => by rw [← h] at heq; cases heq⟩
    · exact ⟨⟨0, by decide⟩, hzero, fun h => heq (by rw [← h])⟩
  let swapped : Renaming := ⟨Equiv.swap start other, Equiv.injective _⟩
  have hfixes : swapped.Fixes S := fun x hx => Equiv.swap_apply_of_ne_of_ne
    (fun heq => hnot (heq ▸ hx)) fun heq => hother (heq ▸ hx)
  have hsame : Equiv.swap start other start = start := Value.function.inj (h swapped hfixes)
  rw [Equiv.swap_apply_left] at hsame
  exact hne hsame

theorem Values.Within.map_eq {vs : List Value} (h : Values.Within S vs) {r : Renaming} (hr : r.Fixes S) :
    vs.map r.value = vs :=
  (List.map_congr_left fun v hv => h v hv r hr).trans vs.map_id

theorem Values.within_of_map_eq {vs : List Value} (h : ∀ r : Renaming, r.Fixes S → vs.map r.value = vs) :
    Values.Within S vs := by
  intro v hv r hr
  obtain ⟨i, hi⟩ := List.getElem?_of_mem hv
  have hmap := congrArg (fun vs : List Value => vs[i]?) (h r hr)
  simpa [hi] using hmap

/-- Results that are within the offsets, if they are values. -/
def Result.Within (S : Nat → Prop) (result : Except Error Value) : Prop :=
  ∀ v, result = .ok v → v.Within S

theorem Result.within_error (e : Error) : Result.Within S (.error e) :=
  fun _ h => by cases h

theorem Result.within_ok {v : Value} (h : v.Within S) : Result.Within S (.ok v) :=
  fun _ heq => Except.ok.inj heq ▸ h

end Values

namespace Machine

variable {W α β : Type} {S : Nat → Prop} {m m' : Machine W}

/-- A change that does over other code what it does over its own. -/
theorem Within.change (h : m.Within S) {g : Machine W → Machine W}
    (hpar : ∀ r : Renaming, r.Fixes S →
      g ((Move.renaming m r).machine m) = (Move.renaming m r).machine (g m))
    (hquiet : (g m).program = m.program ∧ (g m).options.placeholderWidth = m.options.placeholderWidth
      ∧ (g m).output = m.output) : (g m).Within S := by
  intro r hr
  have hmove : Move.renaming (g m) r = Move.renaming m r := by
    simp only [Move.renaming, Move.stay, hquiet.1, hquiet.2.1, hquiet.2.2]
  rw [hmove, ← hpar r hr, h r hr]

/-- Work that does over other code what it does over its own leaves what does not change there as it is. -/
theorem fixed_of_parallel {M : Move} {f : α → α} {g : Work W α} (h : M.Parallel f g g) (hm : M.machine m = m) :
    M.machine (leftBy (g m)) = leftBy (g m) ∧ ∀ a m', g m = .ok a m' → f a = a := by
  have hsame := h m
  rw [hm] at hsame
  cases hwork : g m with
  | ok a n =>
    rw [hwork] at hsame
    injection hsame with ha hn
    refine ⟨hn.symm, fun b m' hb => ?_⟩
    cases hb
    exact ha.symm
  | error e n =>
    rw [hwork] at hsame
    injection hsame with _ hn
    exact ⟨hn.symm, fun _ _ hb => by cases hb⟩

/-- Work that does over other code what it does over its own makes no functions up. -/
theorem Within.work (h : m.Within S) {g : Work W α} {f : Renaming → α → α}
    (hpar : ∀ r : Renaming, r.Fixes S → (Move.renaming m r).Parallel (f r) g g) (hquiet : Quiet g) :
    (leftBy (g m)).Within S ∧ ∀ a m', g m = .ok a m' → ∀ r : Renaming, r.Fixes S → f r a = a := by
  obtain ⟨hprogram, hwidth, houtput⟩ := hquiet m
  have hmove (r : Renaming) : Move.renaming (leftBy (g m)) r = Move.renaming m r := by
    simp only [Move.renaming, Move.stay, hprogram, hwidth, houtput]
  refine ⟨fun r hr => ?_, fun a m' hwork r hr => (fixed_of_parallel (hpar r hr) (h r hr)).2 a m' hwork⟩
  rw [hmove]
  exact (fixed_of_parallel (hpar r hr) (h r hr)).1

theorem Within.mono {S' : Nat → Prop} (h : m.Within S) (hle : ∀ o, S o → S' o) : m.Within S' :=
  fun r hr => h r fun start hstart => hr start (hle _ hstart)

/-- Where the code is and what was printed do not matter. -/
theorem Within.elsewhere (h : m.Within S) (program : Code.Program) (output : Output) :
    ({ m with program := program, output := output } : Machine W).Within S := by
  intro r hr
  show ({ (Move.renaming m r).machine m with program := program, output := output } : Machine W) = _
  rw [h r hr]

/-! ## Instructions -/

/-- Where a run goes on, with the values that it hands on within the offsets. -/
def FlowWithin (S : Nat → Prop) : Flow → Prop
  | .goOn _ | .jump _ => True
  | .finish v => v.Within S
  | .host callee receiver args _ _ => callee.Within S ∧ receiver.Within S ∧ Values.Within S args

/-- What a step hands on, with its values within the offsets. -/
def StepWithin (S : Nat → Prop) : Step → Prop
  | .goOn _ => True
  | .finish v => v.Within S
  | .host callee receiver args _ _ => callee.Within S ∧ receiver.Within S ∧ Values.Within S args

theorem Within.flow (h : m.Within S) {work : Work W Flow} (offset place : Renaming → Nat → Nat)
    (hpar : ∀ r : Renaming, r.Fixes S →
      (Move.renaming m r).Parallel ((Move.renaming m r).flow (offset r) (place r)) work work)
    (hquiet : Quiet work) :
    (leftBy (work m)).Within S ∧ ∀ flow m', work m = .ok flow m' → FlowWithin S flow := by
  obtain ⟨hleft, hflow⟩ := h.work hpar hquiet
  refine ⟨hleft, fun flow m' hwork => ?_⟩
  have hall := hflow flow m' hwork
  cases flow with
  | goOn pos => trivial
  | jump o => trivial
  | finish v => exact fun r hr => Flow.finish.inj (hall r hr)
  | host callee receiver args slot pos =>
    have hinj (r : Renaming) (hr : r.Fixes S) := Flow.host.inj (hall r hr)
    exact ⟨fun r hr => (hinj r hr).1, fun r hr => (hinj r hr).2.1,
      Values.within_of_map_eq fun r hr => (hinj r hr).2.2.1⟩

theorem Within.push (h : m.Within S) {v : Value} (hv : v.Within S) :
    ({ m with stack := m.stack.push v } : Machine W).Within S := by
  refine (h.work (g := Machine.push v) (f := fun _ u => u) (fun r hr => ?_) fun _ => ⟨rfl, rfl, rfl⟩).1
  have hpar := parallel_push (W := W) (M := Move.renaming m r) v
  rwa [show (Move.renaming m r).value v = v from hv r hr] at hpar

/-- An instruction makes no functions up, but for the one that makes functions. -/
theorem Within.carryOut (h : m.Within S) (env : Embedding W) (c : Cursor) (i : Code.Instr) (firstEnd next : Nat)
    (hfunction : ∀ back v, i = .pushFunc back → functionBack c.offset back = .ok v → v.Within S) :
    (leftBy (carryOut env c i firstEnd next m)).Within S
      ∧ ∀ flow m', Machine.carryOut env c i firstEnd next m = .ok flow m' → FlowWithin S flow := by
  have hquiet := quiet_carryOut env c i firstEnd next
  cases hstraight : i.isStraight with
  | true =>
    exact h.flow (fun _ => id) (fun _ => id)
      (fun r _ => parallel_carryOut env rfl hstraight id id firstEnd firstEnd next) hquiet
  | false =>
    cases i with
    | jmp distance | header =>
      refine ⟨h, fun flow m' hwork => ?_⟩
      cases hwork
      trivial
    | jmpTrue distance | jmpFalse distance =>
      exact h.flow (fun _ => id) (fun _ => id) (fun r _ => parallel_jumpIf id id _ rfl) hquiet
    | jmpNeutralTrue distance | jmpNeutralFalse distance =>
      exact h.flow (fun _ => id) (fun _ => id) (fun r _ => parallel_jumpKeeping id id _ rfl) hquiet
    | pushFunc back =>
      show (leftBy ((ofExcept (functionBack c.offset back) >>= fun v => Machine.push v >>= fun _ =>
          (pure (.goOn next) : Work W Flow)) m)).Within S
        ∧ ∀ flow m', (ofExcept (functionBack c.offset back) >>= fun v => Machine.push v >>= fun _ =>
          (pure (.goOn next) : Work W Flow)) m = .ok flow m' → FlowWithin S flow
      cases hback : functionBack c.offset back with
      | error e => exact ⟨h, fun flow m' hwork => by cases hwork⟩
      | ok v =>
        refine ⟨h.push (hfunction back v rfl hback), fun flow m' hwork => ?_⟩
        cases hwork
        trivial
    | call =>
      exact h.flow (fun r => (Move.renaming m r).entry) (fun _ => id)
        (fun r _ => parallel_callPending c.offset next id) hquiet
    | «return» =>
      exact h.flow (fun _ o => o - 1 + 1) (fun _ => id) (fun r _ => parallel_returnFromCall id) hquiet
    | loop breakDistance continueDistance =>
      obtain ⟨hleft, -⟩ := h.work (g := openLoop (c.base + firstEnd + breakDistance)
        (c.base + next + continueDistance)) (f := fun _ u => u) (fun r _ => parallel_openLoop _ _) fun _ => ⟨rfl, rfl, rfl⟩
      refine ⟨hleft, fun flow m' hwork => ?_⟩
      cases hwork
      trivial
    | «break» => exact h.flow (fun _ => id) (fun _ => id) (fun r _ => parallel_breakLoop id) hquiet
    | «continue» => exact h.flow (fun _ => id) (fun _ => id) (fun r _ => parallel_continueLoop id) hquiet
    | _ => cases hstraight

/-- A step makes no functions up, but for the one that makes functions. -/
theorem Within.advance (h : m.Within S) (env : Embedding W) (c : Cursor)
    (hfunction : ∀ back v firstEnd next, Code.Decoded.read c.code c.pos = .instr (.pushFunc back) firstEnd next →
      functionBack c.offset back = .ok v → v.Within S) :
    (leftBy (advance env c m)).Within S ∧ ∀ step m', Machine.advance env c m = .ok step m' → StepWithin S step := by
  cases hread : Code.Decoded.read c.code c.pos with
  | instr i firstEnd next =>
    obtain ⟨hleft, hflow⟩ := h.carryOut env c i firstEnd next fun back v hi hv =>
      hfunction back v firstEnd next (hi ▸ hread) hv
    rw [advance_eq env hread, bind_eq]
    cases hwork : Machine.carryOut env c i firstEnd next m with
    | error e n =>
      rw [hwork] at hleft
      exact ⟨hleft, fun _ _ h => by cases h⟩
    | ok flow n =>
      rw [hwork] at hleft
      have hwithin := hflow flow n hwork
      cases flow with
      | goOn pos | finish v | host callee receiver args slot pos =>
        refine ⟨hleft, fun step m' hstep => ?_⟩
        cases hstep
        exact hwithin
      | jump offset =>
        simp only [settle, bind_eq, inspect]
        cases c.goTo n.program offset i.op with
        | error e => exact ⟨hleft, fun _ _ h => by cases h⟩
        | ok c' =>
          refine ⟨hleft, fun step m' hstep => ?_⟩
          cases hstep
          trivial
  | _ =>
    unfold Machine.advance
    simp only [hread]
    exact ⟨h, fun _ _ h => by cases h⟩

/-- A function on the stack starts at one of the offsets. -/
theorem Within.stack (h : m.Within S) {i : Nat} {v : Value} (hv : m.stack[i]? = some v) : v.Within S := by
  intro r hr
  have hstack : ((Move.renaming m r).machine m).stack[i]? = m.stack[i]? := by rw [h r hr]
  rw [getElem?_stack_machine, hv] at hstack
  exact Option.some.inj hstack

end Machine

end ScriptEngine
