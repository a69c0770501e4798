import ScriptEngine.Proofs.Machine.Plans
import ScriptEngine.Proofs.Machine.Rows
import ScriptEngine.Proofs.Machine.Footing
/-!
What is open in a run.

`Nesting` is what the stacks are like but for values: calls, scopes and loops. In a run it is, on top of what the
innermost call was entered with, what the code has open at the cursor (`Machine.Stood`); and what a call was entered
with is what its caller had open, or what an execution started with (`Nesting.Entered`), which is what waits for it,
down to the bottom (`Nesting.Awaited`). An instruction keeps that up (`Machine.Stood.advance`), and nothing is asked of
the values: it goes for all programs.
-/

namespace ScriptEngine

open Code (Decoded Instr Item Nest Op Plan Plans Program Ring)

/-! ## Nestings -/

/-- The calls, scopes and loops that are open; what is on top comes first. -/
structure Nesting where
  returns : List Return
  scopes : Nat
  loops : List LoopFrame

namespace Nesting

variable {E F G : Nesting}

/-- A loop of a unit at an offset, in a call that was entered with some scopes. -/
def ring (p : Plan) (base scopes : Nat) (r : Ring) : LoopFrame :=
  ⟨scopes + r.scopes, base + p.place r.exit, base + p.place r.again⟩

/-- With what code of a unit at an offset has open. -/
def plus (E : Nesting) (p : Plan) (base : Nat) (N : Nest) : Nesting where
  returns := E.returns
  scopes := E.scopes + N.scopes
  loops := N.rings.map (ring p base E.scopes) ++ E.loops

/-- With another call. -/
def call (E : Nesting) (site : Option Nat) (slot : Nat) : Nesting :=
  { E with returns := ⟨site, E.scopes, E.loops.length, slot⟩ :: E.returns }

theorem plus_entry (E : Nesting) (p : Plan) (base : Nat) : E.plus p base .entry = E := rfl

/-- All of it is there below. -/
structure Below (E F : Nesting) : Prop where
  returns : E.returns <:+ F.returns
  scopes : E.scopes ≤ F.scopes
  loops : E.loops <:+ F.loops

theorem Below.refl (E : Nesting) : E.Below E :=
  ⟨List.suffix_refl _, Nat.le_refl _, List.suffix_refl _⟩

theorem Below.trans (h : E.Below F) (h' : F.Below G) : E.Below G :=
  ⟨h.returns.trans h'.returns, Nat.le_trans h.scopes h'.scopes, h.loops.trans h'.loops⟩

theorem below_plus (E : Nesting) (p : Plan) (base : Nat) (N : Nest) : E.Below (E.plus p base N) :=
  ⟨List.suffix_refl _, Nat.le_add_right _ _, List.suffix_append _ _⟩

theorem below_call (E : Nesting) (site : Option Nat) (slot : Nat) : E.Below (E.call site slot) :=
  ⟨List.suffix_cons _ _, Nat.le_refl _, List.suffix_refl _⟩

/-- An execution that started with it cuts the stacks back to these sizes. -/
structure Sized (E : Nesting) (d : Depths) : Prop where
  calls : d.calls = E.returns.length
  scopes : d.scopes = E.scopes
  loops : d.loops = E.loops.length

end Nesting

/-- The loops that are open go on at items. -/
def Code.Nest.Inside (n : Nat) (N : Nest) : Prop :=
  ∀ r ∈ N.rings, r.exit < n ∧ r.again < n

section Entered

variable {W : Type}

mutual

/-- What is open when something starts that runs no code, down to the bottom, with what waits for it. -/
inductive Nesting.Awaited (T : Plans) (P : Program) : Nesting → List (Waiting W) → Prop
  | bottom (E : Nesting) : Awaited T P E []
  | action {E : Nesting} {K : List (Waiting W)} {next : Machine W → Except Error Value → Action W Value}
    (h : Awaited T P E K) : Awaited T P E (.action next :: K)
  | call {E : Nesting} {K : List (Waiting W)} {size : Nat} {receiver : Value} (h : Awaited T P E K) :
    Awaited T P E (.call size receiver :: K)
  /-- A run called a function outside of the code. -/
  | run {E : Nesting} {K : List (Waiting W)} {N : Nest} {c : Cursor} {site callee offset slot : Nat}
    {entries : List Depths} (h : Entered T P E K) (hfinds : c.Finds T P N)
    (hinside : N.Inside (T c.code).items.length) :
    Awaited T P ((E.plus (T c.code) c.base N).call (some site) callee) (.run offset slot c entries :: K)

/-- What a call of code was entered with, down to the bottom, with what waits for its run. -/
inductive Nesting.Entered (T : Plans) (P : Program) : Nesting → List (Waiting W) → Prop
  | execution {E : Nesting} {K : List (Waiting W)} {start : Depths} {receiver : Value} {slot : Nat}
    (h : Awaited T P E K) (hstart : E.Sized start) : Entered T P (E.call none slot) (.execution start receiver :: K)
  /-- It was called from the item in front of the one where its caller goes on. -/
  | code {E : Nesting} {K : List (Waiting W)} {base i site slot : Nat} {unit : Array UInt8} (h : Entered T P E K)
    (hhas : P.Has base unit) (hi : i < (T unit).items.length) (hsite : site + 1 = base + (T unit).place i)
    (hinside : ((T unit).nests i).Inside (T unit).items.length) :
    Entered T P ((E.plus (T unit) base ((T unit).nests i)).call (some site) slot) K

end

namespace Nesting

variable {T : Plans} {P : Program} {E G : Nesting} {K : List (Waiting W)}

/-- What an execution started with is there below, and what waits is that execution. -/
def Over (T : Plans) (P : Program) (G : Nesting) (K : List (Waiting W)) : Prop :=
  ∃ (start : Depths) (receiver : Value) (K' : List (Waiting W)) (E : Nesting), K = .execution start receiver :: K' ∧ E.Awaited T P K' ∧ E.Sized start ∧ E.Below G

theorem Entered.over : ∀ {E : Nesting} {K : List (Waiting W)}, E.Entered T P K → E.Below G → Over T P G K
  | _, _, .execution h hstart, hbelow => ⟨_, _, _, _, rfl, h, hstart, (below_call _ _ _).trans hbelow⟩
  | _, _, .code h _ _ _ _, hbelow => h.over ((below_plus _ _ _ _).trans ((below_call _ _ _).trans hbelow))

/-- The call that was entered is on top. -/
theorem Entered.exists_call (h : E.Entered T P K) :
    ∃ call callers, E.returns = call :: callers ∧ call.scopes = E.scopes ∧ call.loops = E.loops.length := by
  cases h with
  | execution h hstart => exact ⟨_, _, rfl, rfl, rfl⟩
  | code h hhas hi hsite hinside => exact ⟨_, _, rfl, rfl, rfl⟩

end Nesting

end Entered

namespace Machine

variable {W α : Type} {T : Plans} {P : Program} {E : Nesting} {K : List (Waiting W)} {m m' n : Machine W}
  {c c' : Cursor} {env : Embedding W}

/-- What is open on a machine. -/
def nesting (m : Machine W) : Nesting :=
  ⟨m.skeleton.returns, m.scopes.size, m.skeleton.loops⟩

theorem nesting_of_skeleton (h : n.skeleton = m.skeleton) : n.nesting = m.nesting := by
  have hscopes : n.scopes.size = m.scopes.size := congrArg Skeleton.scopes h
  rw [nesting, nesting, h, hscopes]

theorem nesting_of_eq (hframes : n.frames = m.frames) (hscopes : n.scopes = m.scopes) (hloops : n.loops = m.loops) :
    n.nesting = m.nesting := by
  simp only [nesting, skeleton, hframes, hscopes, hloops]

theorem Aloof.nesting (work : Work W α) [Aloof work] (m : Machine W) : (leftBy (work m)).nesting = m.nesting :=
  nesting_of_eq (Aloof.frames m) (Aloof.scopes m) (Aloof.loops m)

theorem nesting_noteFailure (m : Machine W) (offset : Nat) (e : Error) : (m.noteFailure offset e).nesting = m.nesting := by
  cases e <;> rfl

theorem nesting_collectIfNeeded (m : Machine W) : m.collectIfNeeded.nesting = m.nesting :=
  nesting_of_skeleton (collectIfNeeded_spares m (Depths.Le.refl _)).2

theorem length_returns (m : Machine W) : m.nesting.returns.length = m.frames.size :=
  (size_frames m).symm

theorem nesting_pushFrame (m : Machine W) (site : Option Nat) (slot : Nat) (receiver : Value) :
    (m.pushFrame site slot receiver).nesting = m.nesting.call site slot := by
  simp [nesting, Nesting.call, skeleton, pushFrame, Frame.bare]

/-- Going back to the caller of the call on top. -/
theorem nesting_unframed {frame : Frame} {F : Nesting} {site : Option Nat} {slot : Nat} {p : Plan} {base : Nat} {N : Nest}
    (hm : m.nesting = (F.call site slot).plus p base N) (hback : m.frames.back? = some frame) :
    frame.callSite = site ∧ (unframed m frame).nesting = F := by
  have hreturns : m.frames.toList.reverse.map Frame.bare = ⟨site, F.scopes, F.loops.length, slot⟩ :: F.returns :=
    congrArg Nesting.returns hm
  obtain ⟨top, rest, hframes, hbare, hrest⟩ := List.map_eq_cons_iff.mp hreturns
  have hlast : m.frames.back? = some top := by
    rw [← Array.getLast?_toList, List.getLast?_eq_head?_reverse, hframes]
    rfl
  cases hback.symm.trans hlast
  have hscopes : frame.scopes = F.scopes := congrArg Return.scopes hbare
  have hfloor : frame.loops = F.loops.length := congrArg Return.loops hbare
  have hsize : m.scopes.size = F.scopes + N.scopes := congrArg Nesting.scopes hm
  have hloops : m.skeleton.loops = N.rings.map (Nesting.ring p base F.scopes) ++ F.loops := congrArg Nesting.loops hm
  refine ⟨congrArg Return.callSite hbare, ?_⟩
  have hskeleton := skeleton_unframed m frame
  have hcalls : (unframed m frame).skeleton.returns = F.returns := by
    rw [hskeleton]
    show m.skeleton.returns.tail = _
    rw [show m.skeleton.returns = _ from hreturns]
    rfl
  have hround : (unframed m frame).skeleton.loops = F.loops := by
    rw [hskeleton, hfloor, ← length_loops, hloops, List.length_append, Nat.add_sub_cancel, List.drop_left]
  have hdepth : (unframed m frame).scopes.size = F.scopes := by
    show (m.scopes.shrink frame.scopes).size = _
    rw [Array.size_shrink, hscopes, hsize]
    omega
  rw [nesting, hcalls, hround, hdepth]

/-- A run is at a cursor, where the code has something open on top of what the innermost call was entered with. -/
structure Stood (T : Plans) (P : Program) (m : Machine W) (c : Cursor) (E : Nesting) (N : Nest) : Prop where
  finds : c.Finds T P N
  inside : N.Inside (T c.code).items.length
  nesting : m.nesting = E.plus (T c.code) c.base N

/-- What comes of a step of a run that something waits for. -/
def Unfolds (T : Plans) (P : Program) (K : List (Waiting W)) : EStateM.Result Error (Machine W) Step → Prop
  | .error _ m' | .ok (.finish _) m' => Nesting.Over T P m'.nesting K
  | .ok (.goOn c') m' => ∃ E N, E.Entered T P K ∧ m'.Stood T P c' E N
  | .ok (.host _ _ _ _ c') m' =>
    ∀ (offset slot : Nat) (entries : List Depths), m'.nesting.Awaited T P (.run offset slot c' entries :: K)

/-- A run at an item. -/
structure StoodAt (T : Plans) (P : Program) (K : List (Waiting W)) (m : Machine W) (c : Cursor) (E : Nesting)
    (i : Nat) : Prop extends Stood T P m c E ((T c.code).nests i) where
  entered : E.Entered T P K
  plans : T.Describe P
  program : m.program.PartOf P
  index : i < (T c.code).items.length
  pos : c.pos = (T c.code).place i

/-! ## Instructions that open and close nothing -/

/-- Work that goes on at a place, if it does. -/
class Proceeds (next : Nat) (work : Work W Flow) : Prop where
  flow : ∀ {m n : Machine W} {flow : Flow}, work m = .ok flow n → flow = .goOn next

instance proceeds_goOn (next : Nat) : Proceeds next (pure (.goOn next) : Work W Flow) :=
  ⟨fun h => by cases h; rfl⟩

instance proceeds_bind (next : Nat) (work : Work W α) (rest : α → Work W Flow) [∀ a, Proceeds next (rest a)] :
    Proceeds next (work >>= rest) := by
  refine ⟨fun h => ?_⟩
  obtain ⟨a, n, -, hrest⟩ := bind_eq_ok.mp h
  exact Proceeds.flow hrest

end Machine

/-- Whether an instruction neither opens nor closes anything, and goes on behind itself. -/
def Code.Instr.isEven : Instr → Bool
  | .call | .newScope | .delScope | .break | .continue | .return | .exit | .header | .jmp _ | .jmpTrue _
  | .jmpFalse _ | .jmpNeutralTrue _ | .jmpNeutralFalse _ | .loop _ _ => false
  | _ => true

theorem Code.Instr.nests_of_isEven {ins : Instr} {nests : Code.Nests} {N next : Nest} (heven : ins.isEven = true)
    (h : ins.Nests nests N next) : next = N := by
  cases ins <;> first | exact h | exact h.elim | cases heven

namespace Machine

variable {W α : Type} {T : Plans} {P : Program} {E : Nesting} {K : List (Waiting W)} {m m' n : Machine W}
  {c c' : Cursor} {env : Embedding W} {i firstEnd next : Nat}

theorem aloof_carryOut (env : Embedding W) (c : Cursor) {ins : Instr} (heven : ins.isEven = true)
    (firstEnd next : Nat) : Aloof (carryOut env c ins firstEnd next) := by
  cases ins with
  | call | newScope | delScope | «break» | «continue» | «return» | exit | header | jmp | jmpTrue | jmpFalse
  | jmpNeutralTrue | jmpNeutralFalse | loop => cases heven
  | _ =>
    simp only [carryOut]
    infer_instance

theorem proceeds_carryOut (env : Embedding W) (c : Cursor) {ins : Instr} (heven : ins.isEven = true)
    (firstEnd next : Nat) : Proceeds next (carryOut env c ins firstEnd next) := by
  cases ins with
  | call | newScope | delScope | «break» | «continue» | «return» | exit | header | jmp | jmpTrue | jmpFalse
  | jmpNeutralTrue | jmpNeutralFalse | loop => cases heven
  | _ =>
    simp only [carryOut]
    infer_instance

/-- Where a jump that looks at the top value goes on. -/
theorem jumpIf_goesOn {wanted : Bool} {pos distance : Nat} {flow : Flow}
    (h : jumpIf wanted pos distance m = .ok flow n) : flow = .goOn pos ∨ flow = .goOn (pos + distance) := by
  unfold jumpIf at h
  obtain ⟨v, m₁, -, h⟩ := bind_eq_ok.mp h
  obtain ⟨holds, m₂, -, h⟩ := bind_eq_ok.mp h
  split at h
  · obtain ⟨_, m₃, -, h⟩ := bind_eq_ok.mp h
    cases h
    exact .inr rfl
  · cases h
    exact .inl rfl

theorem jumpKeeping_goesOn {wanted : Bool} {pos distance : Nat} {flow : Flow}
    (h : jumpKeeping wanted pos distance m = .ok flow n) : flow = .goOn pos ∨ flow = .goOn (pos + distance) := by
  unfold jumpKeeping at h
  obtain ⟨v, m₁, -, h⟩ := bind_eq_ok.mp h
  obtain ⟨holds, m₂, -, h⟩ := bind_eq_ok.mp h
  cases h
  split
  · exact .inr rfl
  · exact .inl rfl

/-! ## Items -/

namespace StoodAt

/-- All that waits is there below. -/
theorem below (h : StoodAt T P K m c E i) : E.Below m.nesting := by
  rw [h.nesting]
  exact E.below_plus _ _ _

theorem of (h : StoodAt T P K m c E i) : (T c.code).Of c.code :=
  h.plans.of_has h.finds.has

theorem nests (h : StoodAt T P K m c E i) {item : Item} (hitem : (T c.code).items[i]? = some item) :
    item.Nests (T c.code).nests i :=
  h.of.nests.agrees hitem

/-- An item is read at the cursor. -/
theorem read (h : StoodAt T P K m c E i) {item : Item} (hitem : (T c.code).items[i]? = some item) :
    item.ReadAs (T c.code).place i (Decoded.read c.code c.pos) := by
  rw [h.pos]
  exact h.of.placed.stands.read hitem

/-- Behind an item that goes on is another one. -/
theorem next_lt (_ : StoodAt T P K m c E i) {item : Item} (hitem : (T c.code).items[i]? = some item)
    (hne : item.op ≠ .exit) : i + 1 < (T c.code).items.length :=
  (Code.Shape.closed_script _).next_lt hitem hne

theorem within (_ : StoodAt T P K m c E i) {item : Item} (hitem : (T c.code).items[i]? = some item) :
    item.Within ((T c.code).items.length - 1) i :=
  (Code.Shape.closed_script _).within hitem

/-- An instruction that fails, or ends the run, and closes nothing that waits. -/
theorem unfolds_of_error (h : StoodAt T P K m c E i) {ins : Instr}
    (hread : Decoded.read c.code c.pos = .instr ins firstEnd next) {e : Error}
    (hcarry : carryOut env c ins firstEnd next m = .error e m') (hm : E.Below m'.nesting) :
    Unfolds T P K (advance env c m) := by
  rw [advance_eq env hread, bind_eq, hcarry]
  exact h.entered.over hm

/-- Goes on at an item, in the same call. -/
theorem unfolds_of_goOn (h : StoodAt T P K m c E i) {ins : Instr}
    (hread : Decoded.read c.code c.pos = .instr ins firstEnd next) {j : Nat} (hj : j < (T c.code).items.length)
    (hcarry : carryOut env c ins firstEnd next m = .ok (.goOn ((T c.code).place j)) m')
    (hinside : ((T c.code).nests j).Inside (T c.code).items.length)
    (hnesting : m'.nesting = E.plus (T c.code) c.base ((T c.code).nests j)) : Unfolds T P K (advance env c m) := by
  rw [advance_eq env hread, bind_eq, hcarry]
  exact ⟨E, _, h.entered, ⟨h.finds.has, h.finds.first, .inr ⟨j, hj, rfl, rfl⟩⟩, hinside, hnesting⟩

/-- Goes on at an item with as much open as before. -/
theorem unfolds_of_same (h : StoodAt T P K m c E i) {ins : Instr}
    (hread : Decoded.read c.code c.pos = .instr ins firstEnd next) {j : Nat} (hj : j < (T c.code).items.length)
    (hcarry : carryOut env c ins firstEnd next m = .ok (.goOn ((T c.code).place j)) m')
    (hnests : (T c.code).nests j = (T c.code).nests i) (hnesting : m'.nesting = m.nesting) :
    Unfolds T P K (advance env c m) := by
  refine h.unfolds_of_goOn hread hj hcarry ?_ ?_
  · rw [hnests]
    exact h.inside
  · rw [hnesting, hnests]
    exact h.nesting

/-- Goes on at an offset, or does not find it. -/
theorem unfolds_of_jump (h : StoodAt T P K m c E i) {ins : Instr} {offset : Nat}
    (hread : Decoded.read c.code c.pos = .instr ins firstEnd next)
    (hcarry : carryOut env c ins firstEnd next m = .ok (.jump offset) m') (hover : Nesting.Over T P m'.nesting K)
    (hgo : ∀ c', m'.program.PartOf P → c.goTo m'.program offset ins.op = .ok c' →
      ∃ E N, E.Entered T P K ∧ m'.Stood T P c' E N) : Unfolds T P K (advance env c m) := by
  have hprogram : m'.program = m.program := by
    have hquiet := (quiet_carryOut env c ins firstEnd next m).1
    rwa [hcarry] at hquiet
  rw [advance_eq env hread, bind_eq, hcarry]
  simp only [settle, bind_eq, inspect]
  cases hto : c.goTo m'.program offset ins.op with
  | error e => exact hover
  | ok c' => exact hgo c' (hprogram ▸ h.program) hto

/-- An instruction that opens and closes nothing. -/
theorem even (h : StoodAt T P K m c E i) {item : Item} (hitem : (T c.code).items[i]? = some item)
    (hnext : (T c.code).nests (i + 1) = (T c.code).nests i) {ins : Instr}
    (hread : Decoded.read c.code c.pos = .instr ins firstEnd ((T c.code).place (i + 1))) (heven : ins.isEven = true)
    (hop : item.op = ins.op) : Unfolds T P K (advance env c m) := by
  have hlt := h.next_lt hitem fun hexit => by
    rw [hop] at hexit
    cases ins <;> cases hexit
    cases heven
  have := aloof_carryOut env c heven firstEnd ((T c.code).place (i + 1))
  have hproceeds := proceeds_carryOut env c heven firstEnd ((T c.code).place (i + 1))
  have hnesting := Aloof.nesting (carryOut env c ins firstEnd ((T c.code).place (i + 1))) m
  cases hcarry : carryOut env c ins firstEnd ((T c.code).place (i + 1)) m with
  | error e m' =>
    rw [hcarry] at hnesting
    exact h.unfolds_of_error hread hcarry (hnesting ▸ h.below)
  | ok flow m' =>
    rw [hcarry] at hnesting
    cases hproceeds.flow hcarry
    exact h.unfolds_of_same hread hlt hcarry hnext hnesting

/-- Leaving the code. -/
theorem exit (h : StoodAt T P K m c E i) (hitem : (T c.code).items[i]? = some (.plain .exit)) :
    Unfolds T P K (advance env c m) := by
  obtain ⟨firstEnd, hread⟩ := h.read hitem
  have hcarry : carryOut env c .exit firstEnd ((T c.code).place (i + 1)) m
      = (pop >>= fun v => pure (Flow.finish v)) m := rfl
  rw [bind_eq] at hcarry
  have hpop := Aloof.nesting (pop : Work W Value) m
  cases hwork : pop m with
  | error e m₁ =>
    rw [hwork] at hcarry hpop
    exact h.unfolds_of_error hread hcarry (hpop ▸ h.below)
  | ok v m₁ =>
    rw [hwork] at hcarry hpop
    rw [advance_eq env hread, bind_eq, hcarry]
    exact h.entered.over (hpop ▸ h.below)

/-! ### Scopes and jumps -/

theorem newScope (h : StoodAt T P K m c E i) (hitem : (T c.code).items[i]? = some (.plain .newScope)) :
    Unfolds T P K (advance env c m) := by
  obtain ⟨firstEnd, hread⟩ := h.read hitem
  have hnext : (T c.code).nests (i + 1) = ((T c.code).nests i).opened := h.nests hitem
  have hlt := h.next_lt hitem (by decide)
  obtain ⟨heap, scope, hnew⟩ : ∃ heap scope, m.heap.newObject = (heap, scope) := ⟨_, _, rfl⟩
  have hcarry : carryOut env c .newScope firstEnd ((T c.code).place (i + 1)) m
      = .ok (.goOn ((T c.code).place (i + 1))) { m with heap := heap, scopes := m.scopes.push scope } := by
    show (openScope >>= fun _ => pure (Flow.goOn ((T c.code).place (i + 1)))) m = _
    simp only [openScope, bind_eq, alloc, hnew]
    rfl
  refine h.unfolds_of_goOn hread hlt hcarry ?_ ?_
  · rw [hnext]
    exact h.inside
  · have hopen : ({ m with heap := heap, scopes := m.scopes.push scope } : Machine W).nesting
        = { m.nesting with scopes := m.nesting.scopes + 1 } := by
      simp only [Machine.nesting, skeleton, Array.size_push]
    rw [hopen, hnext, h.nesting]
    rfl

theorem delScope (h : StoodAt T P K m c E i) (hitem : (T c.code).items[i]? = some (.plain .delScope)) :
    Unfolds T P K (advance env c m) := by
  obtain ⟨firstEnd, hread⟩ := h.read hitem
  have hopen : (T c.code).nests i = ((T c.code).nests (i + 1)).opened := h.nests hitem
  have hlt := h.next_lt hitem (by decide)
  have hcarry : carryOut env c .delScope firstEnd ((T c.code).place (i + 1)) m
      = (closeScope >>= fun _ => pure (Flow.goOn ((T c.code).place (i + 1)))) m := rfl
  rw [bind_eq] at hcarry
  by_cases hfew : m.scopes.size ≤ 1
  · have hclose : (closeScope m : EStateM.Result Error (Machine W) Unit) = .error scopesUnderflow m := if_pos hfew
    rw [hclose] at hcarry
    exact h.unfolds_of_error hread hcarry h.below
  · have hclose : (closeScope m : EStateM.Result Error (Machine W) Unit)
        = .ok () { m with scopes := m.scopes.pop } := if_neg hfew
    rw [hclose] at hcarry
    refine h.unfolds_of_goOn hread hlt hcarry ?_ ?_
    · have hinside := h.inside
      rw [hopen] at hinside
      exact hinside
    · have hless : ({ m with scopes := m.scopes.pop } : Machine W).nesting
          = { m.nesting with scopes := m.nesting.scopes - 1 } := by
        simp only [Machine.nesting, skeleton, Array.size_pop]
      rw [hless, h.nesting, hopen]
      rfl

theorem skip (h : StoodAt T P K m c E i) {ahead : Nat} (hitem : (T c.code).items[i]? = some (.jump .always ahead)) :
    Unfolds T P K (advance env c m) := by
  obtain ⟨distance, hread, hplace⟩ := h.read hitem
  have htarget : i + 1 + ahead ≤ (T c.code).items.length - 1 := h.within hitem
  refine h.unfolds_of_same (j := i + 1 + ahead) hread (by have := h.index; omega) ?_ (h.nests hitem) rfl
  rw [← hplace]
  rfl

/-- A jump that looks at the top value. -/
theorem branch (h : StoodAt T P K m c E i) {j : Code.Jump} {ahead : Nat}
    (hitem : (T c.code).items[i]? = some (.jump j ahead)) (hj : j ≠ .always) : Unfolds T P K (advance env c m) := by
  obtain ⟨distance, hread, hplace⟩ := h.read hitem
  have hlt := h.next_lt hitem (by cases j <;> exact fun hop => by cases hop)
  have htarget : i + 1 + ahead ≤ (T c.code).items.length - 1 := h.within hitem
  obtain ⟨hnext, hahead⟩ : (T c.code).nests (i + 1) = (T c.code).nests i
      ∧ (T c.code).nests (i + 1 + ahead) = (T c.code).nests i := by
    have hitem' := h.nests hitem
    cases j with
    | always => exact absurd rfl hj
    | onFalse | onTrueKept | onFalseKept => exact hitem'
  have : Aloof (carryOut env c (j.instr distance) ((T c.code).place (i + 1)) ((T c.code).place (i + 1))) := by
    cases j <;> simp only [Code.Jump.instr, carryOut] <;> infer_instance
  have hnesting := Aloof.nesting (carryOut env c (j.instr distance) ((T c.code).place (i + 1)) ((T c.code).place (i + 1))) m
  cases hcarry : carryOut env c (j.instr distance) ((T c.code).place (i + 1)) ((T c.code).place (i + 1)) m with
  | error e m' =>
    rw [hcarry] at hnesting
    exact h.unfolds_of_error hread hcarry (hnesting ▸ h.below)
  | ok flow m' =>
    rw [hcarry] at hnesting
    have hflow : flow = .goOn ((T c.code).place (i + 1)) ∨ flow = .goOn ((T c.code).place (i + 1) + distance) := by
      cases j with
      | always => exact absurd rfl hj
      | onFalse => exact jumpIf_goesOn hcarry
      | onTrueKept | onFalseKept => exact jumpKeeping_goesOn hcarry
    rcases hflow with rfl | rfl
    · exact h.unfolds_of_same hread hlt hcarry hnext hnesting
    · rw [hplace] at hcarry
      exact h.unfolds_of_same (j := i + 1 + ahead) hread (by omega) hcarry hahead hnesting

theorem func (h : StoodAt T P K m c E i) {behind : Nat} (hitem : (T c.code).items[i]? = some (.func behind)) :
    Unfolds T P K (advance env c m) := by
  obtain ⟨back, firstEnd, hread, -⟩ := h.read hitem
  exact h.even hitem (h.nests hitem).2 hread rfl rfl

/-! ### Loops -/

theorem loop (h : StoodAt T P K m c E i) {exit again : Nat} (hitem : (T c.code).items[i]? = some (.loop exit again)) :
    Unfolds T P K (advance env c m) := by
  obtain ⟨b, d, firstEnd, hread, hexit, hagain⟩ := h.read hitem
  have hlt := h.next_lt hitem fun hop => by cases hop
  have hwithin : i + 1 + exit ≤ (T c.code).items.length - 1 ∧ i + 1 + again ≤ (T c.code).items.length - 1 :=
    h.within hitem
  obtain ⟨-, hnext, -⟩ := h.nests hitem
  let m₁ : Machine W := { m with
    loops := m.loops.push ⟨m.scopes.size, c.base + firstEnd + b, c.base + (T c.code).place (i + 1) + d⟩ }
  have hcarry : carryOut env c (.loop b d) firstEnd ((T c.code).place (i + 1)) m
      = .ok (.goOn ((T c.code).place (i + 1))) m₁ := rfl
  refine h.unfolds_of_goOn hread hlt hcarry ?_ ?_
  · rw [hnext]
    intro r hr
    rcases List.mem_cons.mp hr with rfl | hr
    · exact ⟨by show i + 1 + exit < _; omega, by show i + 1 + again < _; omega⟩
    · exact h.inside r hr
  · have hmore : m₁.nesting = { m.nesting with
        loops := ⟨m.nesting.scopes, c.base + firstEnd + b, c.base + (T c.code).place (i + 1) + d⟩ :: m.nesting.loops } := by
      simp [m₁, Machine.nesting, skeleton]
    rw [hmore, hnext, h.nesting, Nat.add_assoc c.base firstEnd b, hexit, Nat.add_assoc c.base _ d, hagain]
    rfl

/-- The loop that a jump out of a loop means is one of the innermost call. -/
theorem currentLoop_eq (h : StoodAt T P K m c E i) (word : String) :
    (∃ e, currentLoop word m = .error e m) ∨ ∃ r rest, ((T c.code).nests i).rings = r :: rest
      ∧ currentLoop word m = .ok (Nesting.ring (T c.code) c.base E.scopes r) m := by
  obtain ⟨call, callers, hcall, -, hfloor⟩ := h.entered.exists_call
  have hreturns : m.skeleton.returns = call :: callers := (congrArg Nesting.returns h.nesting).trans hcall
  have hloops : m.skeleton.loops
      = ((T c.code).nests i).rings.map (Nesting.ring (T c.code) c.base E.scopes) ++ E.loops :=
    congrArg Nesting.loops h.nesting
  rcases currentLoop_cases hreturns word with ⟨-, hnone⟩ | ⟨loop, own, hown, hle, hloop⟩
  · exact .inl ⟨_, hnone⟩
  · rw [hown] at hloops
    cases hrings : ((T c.code).nests i).rings with
    | nil =>
      have hlength := congrArg List.length hloops
      rw [hrings, List.map_nil, List.nil_append, List.length_cons] at hlength
      omega
    | cons r rest =>
      rw [hrings, List.map_cons, List.cons_append, List.cons.injEq] at hloops
      exact .inr ⟨r, rest, rfl, hloops.1 ▸ hloop⟩

/-- Goes on at an item of the same call, from elsewhere. -/
theorem unfolds_of_jump_item (h : StoodAt T P K m c E i) {ins : Instr} {j : Nat}
    (hread : Decoded.read c.code c.pos = .instr ins firstEnd next) (hj : j < (T c.code).items.length)
    (hcarry : carryOut env c ins firstEnd next m = .ok (.jump (c.base + (T c.code).place j)) m')
    (hinside : ((T c.code).nests j).Inside (T c.code).items.length)
    (hnesting : m'.nesting = E.plus (T c.code) c.base ((T c.code).nests j)) : Unfolds T P K (advance env c m) := by
  refine h.unfolds_of_jump hread hcarry (h.entered.over (hnesting ▸ E.below_plus _ _ _)) fun c' hprogram hgo => ?_
  obtain rfl := h.plans.goTo_item hprogram h.finds.has h.finds.first h.finds.has hj hgo
  exact ⟨E, _, h.entered, Code.Plans.finds_item h.finds.has hj, hinside, hnesting⟩

theorem «break» (h : StoodAt T P K m c E i) (hitem : (T c.code).items[i]? = some (.plain .break)) :
    Unfolds T P K (advance env c m) := by
  obtain ⟨firstEnd, hread⟩ := h.read hitem
  rcases h.currentLoop_eq "break" with ⟨e, hcurrent⟩ | ⟨r, rest, hrings, hcurrent⟩
  · refine h.unfolds_of_error (e := e) hread ?_ h.below
    show breakLoop m = _
    simp only [breakLoop, bind_eq, hcurrent]
  · have hmem : r ∈ ((T c.code).nests i).rings := hrings ▸ List.mem_cons_self
    obtain ⟨hscopes, hrest⟩ : ((T c.code).nests r.exit).scopes = r.scopes ∧ ((T c.code).nests r.exit).rings = rest :=
      h.nests hitem r rest hrings
    let m₁ : Machine W := { m with loops := m.loops.pop, scopes := m.scopes.shrink (E.scopes + r.scopes) }
    have hcarry : carryOut env c .break firstEnd ((T c.code).place (i + 1)) m
        = .ok (.jump (c.base + (T c.code).place r.exit)) m₁ := by
      show breakLoop m = _
      simp only [breakLoop, bind_eq, hcurrent]
      rfl
    refine h.unfolds_of_jump_item hread (h.inside r hmem).1 hcarry ?_ ?_
    · intro r' hr'
      rw [hrest] at hr'
      exact h.inside r' (hrings ▸ List.mem_cons_of_mem r hr')
    · have hleft : m₁.nesting = ⟨m.nesting.returns, min (E.scopes + r.scopes) m.nesting.scopes, m.nesting.loops.tail⟩ := by
        simp [m₁, Machine.nesting, skeleton]
      have hle := ((T c.code).nests i).inside r hmem
      rw [hleft, h.nesting]
      simp only [Nesting.plus, hrings, hscopes, hrest, List.map_cons, List.cons_append, List.tail_cons,
        Nat.min_eq_left (Nat.add_le_add_left hle _)]

theorem «continue» (h : StoodAt T P K m c E i) (hitem : (T c.code).items[i]? = some (.plain .continue)) :
    Unfolds T P K (advance env c m) := by
  obtain ⟨firstEnd, hread⟩ := h.read hitem
  rcases h.currentLoop_eq "continue" with ⟨e, hcurrent⟩ | ⟨r, rest, hrings, hcurrent⟩
  · refine h.unfolds_of_error (e := e) hread ?_ h.below
    show continueLoop m = _
    simp only [continueLoop, bind_eq, hcurrent]
  · have hmem : r ∈ ((T c.code).nests i).rings := hrings ▸ List.mem_cons_self
    obtain ⟨hscopes, hrest⟩ :
        ((T c.code).nests r.again).scopes = r.scopes ∧ ((T c.code).nests r.again).rings = r :: rest :=
      h.nests hitem r rest hrings
    let m₁ : Machine W := { m with scopes := m.scopes.shrink (E.scopes + r.scopes) }
    have hcarry : carryOut env c .continue firstEnd ((T c.code).place (i + 1)) m
        = .ok (.jump (c.base + (T c.code).place r.again)) m₁ := by
      show continueLoop m = _
      simp only [continueLoop, bind_eq, hcurrent]
      rfl
    refine h.unfolds_of_jump_item hread (h.inside r hmem).2 hcarry ?_ ?_
    · intro r' hr'
      rw [hrest, ← hrings] at hr'
      exact h.inside r' hr'
    · have hleft : m₁.nesting = { m.nesting with scopes := min (E.scopes + r.scopes) m.nesting.scopes } := by
        simp [m₁, Machine.nesting, skeleton]
      have hle := ((T c.code).nests i).inside r hmem
      rw [hleft, h.nesting]
      simp only [Nesting.plus, hrings, hscopes, hrest, Nat.min_eq_left (Nat.add_le_add_left hle _)]

/-! ### Calls and returns -/

/-- What comes of a call: a frame is pushed for code or for a function outside of it, or nothing is opened. -/
theorem callPending_cases (site pos : Nat) (m : Machine W) :
    (∃ e n, callPending site pos m = .error e n ∧ n.nesting = m.nesting)
      ∨ (∃ o slot n, callPending site pos m = .ok (.jump o) n ∧ n.nesting = m.nesting.call (some site) slot)
      ∨ ∃ callee receiver args slot n, callPending site pos m = .ok (.host callee receiver args slot pos) n
        ∧ n.nesting = m.nesting.call (some site) slot := by
  rw [callPending_eq_bind, bind_eq]
  have htake := Aloof.nesting (takePending : Work W PendingCall) m
  cases hwork : (takePending m : EStateM.Result Error (Machine W) PendingCall) with
  | error e n =>
    rw [hwork] at htake
    exact .inl ⟨e, n, rfl, htake⟩
  | ok call n =>
    rw [hwork] at htake
    replace htake : n.nesting = m.nesting := htake
    simp only [bind_eq, inspect, ← htake]
    cases hslot : n.stack[call.calleeSlot]? with
    | none => exact .inl ⟨_, n, rfl, rfl⟩
    | some callee =>
      have hpush := nesting_pushFrame n (some site) call.calleeSlot call.receiver
      cases callee with
      | function start => exact .inr (.inl ⟨_, _, _, rfl, hpush⟩)
      | native id | signature id => exact .inr (.inr ⟨_, _, _, _, _, rfl, hpush⟩)
      | _ => exact .inl ⟨_, n, rfl, rfl⟩

theorem call (h : StoodAt T P K m c E i) (hwithin : m.Within (T.Entry P))
    (hitem : (T c.code).items[i]? = some (.plain .call)) : Unfolds T P K (advance env c m) := by
  obtain ⟨firstEnd, hread⟩ := h.read hitem
  have hnext : (T c.code).nests (i + 1) = (T c.code).nests i := h.nests hitem
  have hlt := h.next_lt hitem (by decide)
  have hsite : c.offset + 1 = c.base + (T c.code).place (i + 1) := by
    rw [h.of.placed.stands.place_behind_call hitem, Cursor.offset, h.pos, Nat.add_assoc]
  have hcarry : carryOut env c .call firstEnd ((T c.code).place (i + 1)) m
      = callPending c.offset ((T c.code).place (i + 1)) m := rfl
  have hinside : ((T c.code).nests (i + 1)).Inside (T c.code).items.length := by
    rw [hnext]
    exact h.inside
  rcases callPending_cases c.offset ((T c.code).place (i + 1)) m with ⟨e, n, hcall, hn⟩ | ⟨o, slot, n, hcall, hn⟩
    | ⟨callee, receiver, args, slot, n, hcall, hn⟩
  · exact h.unfolds_of_error hread (hcarry.trans hcall) (hn ▸ h.below)
  · rw [h.nesting, ← hnext] at hn
    have hentered : (n.nesting).Entered T P K := hn ▸ .code h.entered h.finds.has hlt hsite hinside
    refine h.unfolds_of_jump hread (hcarry.trans hcall) (hentered.over (.refl _)) fun c' hprogram hgo => ?_
    have hentry : T.Entry P o := hwithin.callPending (fun h0 => absurd (h.plans.one_lt_entry h0) (by decide))
      (fun h1 => absurd (h.plans.one_lt_entry h1) (by decide)) hcall
    exact ⟨_, _, hentered, h.plans.goTo_entry hprogram h.finds.has h.finds.first hentry hgo,
      fun r hr => absurd hr List.not_mem_nil, rfl⟩
  · rw [h.nesting, ← hnext] at hn
    rw [advance_eq env hread, bind_eq, hcarry, hcall]
    intro offset slot' entries
    have hfinds : Cursor.Finds T P { c with pos := (T c.code).place (i + 1), previous := Instr.call.op }
        ((T c.code).nests (i + 1)) := ⟨h.finds.has, h.finds.first, .inr ⟨i + 1, hlt, rfl, rfl⟩⟩
    rw [hn]
    exact .run h.entered hfinds hinside

theorem «return» (h : StoodAt T P K m c E i) (hitem : (T c.code).items[i]? = some (.plain .return)) :
    Unfolds T P K (advance env c m) := by
  obtain ⟨firstEnd, hread⟩ := h.read hitem
  have hcarry : carryOut env c .return firstEnd ((T c.code).place (i + 1)) m = returnFromCall m := rfl
  obtain ⟨frame, hback⟩ : ∃ frame, m.frames.back? = some frame := by
    obtain ⟨call, callers, hcall, -⟩ := h.entered.exists_call
    obtain ⟨top, hback, -⟩ := back_of_returns ((congrArg Nesting.returns h.nesting).trans hcall)
    exact ⟨top, hback⟩
  have hm := h.nesting
  have hentered := h.entered
  rw [returnFromCall_eq hback] at hcarry
  cases hentered with
  | @execution E' K' start receiver slot hawaited hstart =>
    obtain ⟨hsite, hleft⟩ := nesting_unframed hm hback
    rw [hsite] at hcarry
    have hpop := Aloof.nesting (pop : Work W Value) (unframed m frame)
    have hover {n : Machine W} (hn : n.nesting = (unframed m frame).nesting) :
        Nesting.Over T P n.nesting (.execution start receiver :: K') :=
      ⟨start, receiver, K', E', rfl, hawaited, hstart, hn.trans hleft ▸ .refl _⟩
    rw [advance_eq env hread, bind_eq, hcarry, bind_eq]
    cases hwork : pop (unframed m frame) with
    | error e n =>
      rw [hwork] at hpop
      exact hover hpop
    | ok v n =>
      rw [hwork] at hpop
      exact hover hpop
  | @code E' _ base j site slot unit hentered hhas hj hsite hinside =>
    obtain ⟨hcall, hleft⟩ := nesting_unframed hm hback
    rw [hcall] at hcarry
    refine h.unfolds_of_jump hread hcarry (hentered.over (hleft ▸ E'.below_plus _ _ _)) fun c' hprogram hgo => ?_
    rw [hsite] at hgo
    obtain rfl := h.plans.goTo_item hprogram h.finds.has h.finds.first hhas hj hgo
    exact ⟨E', _, hentered, Code.Plans.finds_item hhas hj, hinside, hleft⟩

/-- A step of a run at an item. -/
theorem advance (h : StoodAt T P K m c E i) (hwithin : m.Within (T.Entry P)) (env : Embedding W) :
    Unfolds T P K (Machine.advance env c m) := by
  obtain ⟨item, hitem⟩ : ∃ item, (T c.code).items[i]? = some item := ⟨_, List.getElem?_eq_getElem h.index⟩
  cases item with
  | jump j ahead =>
    by_cases hj : j = .always
    · subst hj
      exact h.skip hitem
    · exact h.branch hitem hj
  | loop exit again => exact h.loop hitem
  | func behind => exact h.func hitem
  | plain ins complete =>
    have hnests : ins.Nests (T c.code).nests ((T c.code).nests i) ((T c.code).nests (i + 1)) := h.nests hitem
    cases heven : ins.isEven with
    | true =>
      obtain ⟨firstEnd, hread⟩ := h.read hitem
      exact h.even hitem (Instr.nests_of_isEven heven hnests) hread heven rfl
    | false =>
      cases ins with
      | call => exact h.call hwithin hitem
      | newScope => exact h.newScope hitem
      | delScope => exact h.delScope hitem
      | «break» => exact h.break hitem
      | «continue» => exact h.continue hitem
      | «return» => exact h.return hitem
      | exit => exact h.exit hitem
      | header | jmp | jmpTrue | jmpFalse | jmpNeutralTrue | jmpNeutralFalse | loop | pushFunc => exact hnests.elim
      | _ => cases heven

end StoodAt

namespace Stood

variable {N : Nest}

theorem below (h : Stood T P m c E N) : E.Below m.nesting := by
  rw [h.nesting]
  exact E.below_plus _ _ _

theorem of_nesting (h : Stood T P m c E N) (hn : n.nesting = m.nesting) : Stood T P n c E N :=
  ⟨h.finds, h.inside, hn.trans h.nesting⟩

/-- A run is at the start of a unit, or at an item. -/
theorem at_item (h : Stood T P m c E N) (hentered : E.Entered T P K) (hT : T.Describe P)
    (hprogram : m.program.PartOf P) : c.pos = 0 ∧ N = .entry ∨ ∃ i, StoodAt T P K m c E i := by
  rcases h.finds.here with hstart | ⟨i, hi, hpos, rfl⟩
  · exact .inl hstart
  · exact .inr ⟨i, h, hentered, hT, hprogram, hi, hpos⟩

/-- A step of a run. -/
theorem advance (h : Stood T P m c E N) (hentered : E.Entered T P K) (hT : T.Describe P)
    (hprogram : m.program.PartOf P) (hwithin : m.Within (T.Entry P)) (env : Embedding W) :
    Unfolds T P K (Machine.advance env c m) := by
  rcases h.at_item hentered hT hprogram with ⟨hpos, rfl⟩ | ⟨i, hat⟩
  · have hof := hT.of_has h.finds.has
    have hread : Decoded.read c.code c.pos = .instr .header 1 1 := by
      rw [hpos]
      exact hof.placed.header
    have hcarry : carryOut env c .header 1 1 m = .ok (.goOn ((T c.code).place 0)) m := by
      rw [← h.finds.first]
      rfl
    rw [advance_eq env hread, bind_eq, hcarry]
    refine ⟨E, .entry, hentered, ⟨h.finds.has, h.finds.first, .inr ⟨0, ?_, rfl, hof.nests.start.symm⟩⟩, h.inside,
      h.nesting⟩
    exact (Code.Shape.closed_script _).length_pos
  · exact hat.advance hwithin env

/-- The functions that code makes start where functions of the code do. -/
theorem functionBack (h : Stood T P m c E N) (hT : T.Describe P) {back firstEnd next : Nat} {v : Value}
    (hread : Decoded.read c.code c.pos = .instr (.pushFunc back) firstEnd next)
    (hv : Machine.functionBack c.offset back = .ok v) : v.Within (T.Entry P) := by
  have hof := hT.of_has h.finds.has
  rcases h.finds.here with ⟨hpos, -⟩ | ⟨i, hi, hpos, -⟩
  · rw [hpos, hof.placed.header] at hread
    cases hread
  · obtain ⟨item, hitem⟩ : ∃ item, (T c.code).items[i]? = some item := ⟨_, List.getElem?_eq_getElem hi⟩
    have hitemRead := hof.placed.stands.read hitem
    rw [← hpos, hread] at hitemRead
    cases item with
    | plain ins complete =>
      obtain ⟨_, hins⟩ := hitemRead
      cases hins
      cases complete
    | jump j ahead =>
      obtain ⟨distance, hins, -⟩ := hitemRead
      cases j <;> cases hins
    | loop exit again =>
      obtain ⟨_, _, _, hins, -⟩ := hitemRead
      cases hins
    | func behind =>
      obtain ⟨back', _, hins, hback⟩ := hitemRead
      cases hins
      have hoffset : c.offset = c.base + (T c.code).place (i - behind) + back := by
        rw [Cursor.offset, hpos, ← hback, Nat.add_assoc]
      have hlow := hT.place_lt h.finds.has (Nat.lt_of_le_of_lt (Nat.sub_le i behind) hi)
      have hhigh := hT.committed.stop_le h.finds.has
      have hsmall := hT.small
      rw [hoffset] at hv
      obtain ⟨entry, rfl, hentry⟩ := functionBack_eq_ok hv (by omega)
      exact Value.within_function ⟨c.base, c.code, i, behind, h.finds.has, hitem, hentry⟩

end Stood

end Machine

end ScriptEngine
