import ScriptEngine.Proofs.Machine.Footing
import ScriptEngine.Proofs.Machine.Receiving
/-!
What code means.

A piece of a program is evaluated as its code runs (`Means`): from the first item of its code a run comes to what the
evaluation of the piece comes to, whatever follows for each way to leave it (`Sequel`). Pieces are put together as
their items are, so there is one lemma for each way to put them together, and one for calls (`callMeans_calls`).
-/

namespace ScriptEngine

open Code (Item Op Program Stands Instr Decoded)

/-! ## Lookups -/

/-- A cursor is in a committed unit. -/
structure Cursor.Lies (p : Program) (c : Cursor) : Prop where
  has : p.Has c.base c.code
  codeStart : ∃ header, Code.Header.read? c.code = some header ∧ c.codeStart = header.codeStart

theorem Cursor.Lies.grows {p q : Program} {c : Cursor} (h : c.Lies p) (hq : p.Grows q) : c.Lies q :=
  ⟨h.has.of_partOf hq.partOf, h.codeStart⟩

namespace Code.Program.Committed

variable {p : Program} {base offset : Nat} {unit : Array UInt8} {c c' : Cursor} {previous : Op}

theorem load_ok (hp : p.Committed) (h : p.Has base unit) (hlow : base ≤ offset) (hhigh : offset < base + unit.size)
    {header : Header} (hheader : Header.read? unit = some header) :
    Cursor.load p offset previous = .ok ⟨unit, base, header.codeStart, offset - base, previous⟩ := by
  cases hload : Cursor.load p offset previous with
  | ok c =>
    obtain ⟨header', hheader', rfl⟩ := hp.load (.refl p) h hlow hhigh hload
    rw [hheader] at hheader'
    cases hheader'
    rfl
  | error e =>
    obtain ⟨part, hpart, rfl, rfl⟩ := h
    have hfound : p.partAt? offset ≠ none := by
      unfold partAt?
      rw [ne_eq, Array.find?_eq_none]
      intro hnone
      exact hnone part hpart (covers_iff.mpr ⟨hlow, hhigh⟩)
    unfold Cursor.load at hload
    split at hload
    · cases hload
    · rename_i hnone
      exact absurd hnone hfound

/-- Going to an offset from within the code is looking it up. -/
theorem goTo_eq_load (hp : p.Committed) (hc : c.Lies p) : c.goTo p offset previous = Cursor.load p offset previous := by
  unfold Cursor.goTo
  split
  · rename_i hinside
    simp only [Bool.and_eq_true, decide_eq_true_eq] at hinside
    obtain ⟨header, hheader, hfirst⟩ := hc.codeStart
    rw [hp.load_ok hc.has hinside.1 hinside.2 hheader, ← hfirst]
  · rfl

theorem lies_of_load (hp : p.Committed) (hload : Cursor.load p offset previous = .ok c) : c.Lies p := by
  unfold Cursor.load at hload
  split at hload
  · rename_i part hpart
    cases hload
    have hmem := Array.mem_of_find?_eq_some hpart
    exact ⟨⟨part, hmem, rfl, rfl⟩, hp.read part hmem⟩
  · cases hload

end Code.Program.Committed

/-! ## Grounds -/

/-- A unit at an offset, with the items that stand in it. -/
structure Ground where
  base : Nat
  unit : Array UInt8
  items : List Item
  place : Nat → Nat
  stands : Stands unit items place
  codeStart : ∃ header, Code.Header.read? unit = some header ∧ place 0 = header.codeStart

namespace Ground

variable {g : Ground} {p : Program} {c : Cursor} {op : Op} {i j : Nat}

/-- The offset of an item. -/
def offset (g : Ground) (i : Nat) : Nat := g.base + g.place i

/-- The cursor at an item. -/
def cursor (g : Ground) (i : Nat) (previous : Op) : Cursor :=
  ⟨g.unit, g.base, g.place 0, g.place i, previous⟩

theorem cursor_lies (hp : p.Has g.base g.unit) (i : Nat) (previous : Op) : (g.cursor i previous).Lies p :=
  ⟨hp, g.codeStart⟩

theorem load (hp : p.Committed) (h : p.Has g.base g.unit) (hi : i < g.items.length) :
    Cursor.load p (g.offset i) op = .ok (g.cursor i op) := by
  obtain ⟨header, hheader, hfirst⟩ := g.codeStart
  have hlt := g.stands.place_lt_size hi
  unfold offset
  rw [hp.load_ok h (Nat.le_add_right _ _) (by omega) hheader, Nat.add_sub_cancel_left, ← hfirst]
  rfl

theorem goTo (hp : p.Committed) (h : p.Has g.base g.unit) (hc : c.Lies p) (hi : i < g.items.length) :
    c.goTo p (g.offset i) op = .ok (g.cursor i op) := by
  rw [hp.goTo_eq_load hc, g.load hp h hi]

/-- Items stand in a ground from an index on, and more items behind them. -/
structure Holds (g : Ground) (i : Nat) (xs : List Item) : Prop where
  room : i + xs.length < g.items.length
  item : ∀ j < xs.length, g.items[i + j]? = xs[j]?

variable {xs ys : List Item} {x : Item}

theorem Holds.left (h : g.Holds i (xs ++ ys)) : g.Holds i xs := by
  have hroom := h.room
  rw [List.length_append] at hroom
  refine ⟨by omega, fun j hj => ?_⟩
  rw [h.item j (by rw [List.length_append]; omega), List.getElem?_append_left hj]

theorem Holds.right (h : g.Holds i (xs ++ ys)) : g.Holds (i + xs.length) ys := by
  have hroom := h.room
  rw [List.length_append] at hroom
  refine ⟨by omega, fun j hj => ?_⟩
  rw [Nat.add_assoc, h.item (xs.length + j) (by rw [List.length_append]; omega),
    List.getElem?_append_right (Nat.le_add_right _ _), Nat.add_sub_cancel_left]

theorem Holds.head (h : g.Holds i (x :: xs)) : g.items[i]? = some x :=
  h.item 0 (Nat.zero_lt_succ _)

theorem Holds.tail (h : g.Holds i (x :: xs)) : g.Holds (i + 1) xs := by
  have hsplit : g.Holds i ([x] ++ xs) := h
  exact hsplit.right

theorem Holds.lt (h : g.Holds i xs) : i < g.items.length :=
  Nat.lt_of_le_of_lt (Nat.le_add_right _ _) h.room

end Ground

/-! ## Calls on a ground -/

/-- What a call stands on: its frame and those of its callers, its loops and those of its callers. -/
structure Standing where
  frame : Return
  callers : List Return
  own : List LoopFrame
  outer : List LoopFrame

namespace Standing

open Machine

variable {W : Type} {S : Standing} {g : Ground} {m n : Machine W}

/-- A machine is in a call on a ground. -/
structure Of (S : Standing) (g : Ground) (m : Machine W) : Prop where
  returns : m.skeleton.returns = S.frame :: S.callers
  loops : m.skeleton.loops = S.own ++ S.outer
  floor : S.frame.loops = S.outer.length
  committed : m.program.Committed
  has : m.program.Has g.base g.unit

/-- A machine has left a call and is on the ground of its caller. -/
structure Left (S : Standing) (g : Ground) (m : Machine W) : Prop where
  returns : m.skeleton.returns = S.callers
  loops : m.skeleton.loops = S.outer
  committed : m.program.Committed
  has : m.program.Has g.base g.unit

theorem Of.next (h : S.Of g m) (hn : m.SameFooting n) (hgrows : m.program.Grows n.program) : S.Of g n :=
  ⟨hn.returns.trans h.returns, hn.loops.trans h.loops, h.floor, hgrows.committed h.committed,
    h.has.of_partOf hgrows.partOf⟩

theorem Of.collectIfNeeded (h : S.Of g m) : S.Of g m.collectIfNeeded :=
  h.next (sameFooting_collectIfNeeded m) (by rw [program_collectIfNeeded]; exact .refl _)

end Standing

/-! ## What follows -/

/-- What follows a piece of a program, for each way to leave it. -/
structure Sequel (W : Type) where
  through : Machine W → Nat → Outcome W Value
  broken : Machine W → Nat → Outcome W Value
  continued : Machine W → Nat → Outcome W Value
  returned : Machine W → Nat → Outcome W Value

/-- What comes of a piece and what follows it. -/
def Exit.followed {W : Type} (x : Exit W) (q : Sequel W) : Outcome W Value :=
  match x with
  | through m budget => q.through m budget
  | broken m budget => q.broken m budget
  | continued m budget => q.continued m budget
  | returned m budget => q.returned m budget
  | ended o => o

/-- Goes on with some work where a piece is left at its end. -/
def Sequel.after {W : Type} (q : Sequel W) (next : Doing W) : Sequel W :=
  { q with through := fun m budget => (next m budget).followed q }

theorem Exit.followed_andThen {W : Type} (x : Exit W) (next : Doing W) (q : Sequel W) :
    (x.andThen next).followed q = x.followed (q.after next) := by
  cases x <;> rfl

section Fits

open Machine

variable {W : Type} {env : Embedding W} {g : Ground} {S : Standing} {q : Sequel W} {bound bound' i : Nat}
  {after after' : Op → Prop}

/-- Where a call goes back to, the run comes to what follows. -/
def GoesBack (env : Embedding W) (g : Ground) (S : Standing) (bound : Nat)
    (back : Machine W → Nat → Outcome W Value) : Prop :=
  ∀ site : Nat, S.frame.callSite = some site → ∃ j < g.items.length, site + 1 = g.offset j
    ∧ ∀ {m : Machine W} {budget : Nat} {previous : Op}, budget < bound → previous ≠ .get → S.Left g m →
      run env m (g.cursor j previous) budget = back m budget

/-- What follows a piece is what a run comes to: behind the piece, if that is left at its end with an instruction
that `after` allows, at the targets of the innermost loop, and where the call goes back to. -/
structure Sequel.Fits (q : Sequel W) (env : Embedding W) (g : Ground) (S : Standing) (bound i : Nat)
    (after : Op → Prop) : Prop where
  through : ∀ {m : Machine W} {budget : Nat} {previous : Op}, budget ≤ bound → after previous → S.Of g m →
    run env m (g.cursor i previous) budget = q.through m budget
  loop : ∀ {loop : LoopFrame} {rest : List LoopFrame}, S.own = loop :: rest →
    ∃ exit < g.items.length, ∃ again < g.items.length,
      loop.breakTarget = g.offset exit ∧ loop.continueTarget = g.offset again
      ∧ (∀ {m : Machine W} {budget : Nat} {previous : Op}, budget < bound → { S with own := rest }.Of g m →
          run env m (g.cursor exit previous) budget = q.broken m budget)
      ∧ ∀ {m : Machine W} {budget : Nat} {previous : Op}, budget < bound → S.Of g m →
          run env m (g.cursor again previous) budget = q.continued m budget
  back : GoesBack env g S bound q.returned

theorem GoesBack.mono {back : Machine W → Nat → Outcome W Value} (h : GoesBack env g S bound back)
    (hle : bound' ≤ bound) : GoesBack env g S bound' back := by
  intro site hsite
  obtain ⟨j, hj, hoffset, hrun⟩ := h site hsite
  exact ⟨j, hj, hoffset, fun hlt => hrun (Nat.lt_of_lt_of_le hlt hle)⟩

/-- Within a smaller budget, and after fewer instructions. -/
theorem Sequel.Fits.mono (h : q.Fits env g S bound i after) (hle : bound' ≤ bound)
    (hafter : ∀ op, after' op → after op) : q.Fits env g S bound' i after' := by
  refine ⟨fun hbudget hprevious => h.through (Nat.le_trans hbudget hle) (hafter _ hprevious), fun hloop => ?_,
    h.back.mono hle⟩
  obtain ⟨exit, hexit, again, hagain, hbreak, hcontinue, hbroken, hcontinued⟩ := h.loop hloop
  exact ⟨exit, hexit, again, hagain, hbreak, hcontinue, fun hlt => hbroken (Nat.lt_of_lt_of_le hlt hle),
    fun hlt => hcontinued (Nat.lt_of_lt_of_le hlt hle)⟩

/-- Another end of the piece. -/
theorem Sequel.Fits.before (h : q.Fits env g S bound i after) {j : Nat} {next : Doing W}
    (hnext : ∀ {m : Machine W} {budget : Nat} {previous : Op}, budget ≤ bound → after' previous → S.Of g m →
      run env m (g.cursor j previous) budget = (next m budget).followed q) :
    (q.after next).Fits env g S bound j after' :=
  ⟨hnext, h.loop, h.back⟩

/-- What a run comes to that goes on at an offset for a call. -/
def enter (env : Embedding W) (m : Machine W) (site start budget : Nat) : Outcome W Value :=
  match Cursor.load m.program start .call with
  | .error e => .done (m.noteFailure site e) (.error e)
  | .ok c => run env m c budget

/-- What calls are said to do is what a run comes to. -/
def CallMeans (env : Embedding W) (g : Ground) (bound : Nat) (call : Nat → Nat → Doing W) : Prop :=
  ∀ (site start : Nat) {m : Machine W} {budget : Nat} {S : Standing} {q : Sequel W}, budget < bound → S.own = [] →
    S.frame.callSite = some site → S.Of g m → GoesBack env g S budget q.returned →
    enter env m site start budget = (call site start m budget).followed q

/-- A setting gives items the offsets that they have, and calls what they do. -/
structure Setting.Fits (s : Setting W) (env : Embedding W) (g : Ground) (bound : Nat) : Prop where
  offset : s.offset = g.offset
  call : CallMeans env g bound s.call

theorem CallMeans.mono {call : Nat → Nat → Doing W} (h : CallMeans env g bound call) (hle : bound' ≤ bound) :
    CallMeans env g bound' call :=
  fun site start _ _ _ _ hlt => h site start (Nat.lt_of_lt_of_le hlt hle)

/-- A function is evaluated as its code runs. -/
def FunctionMeans (env : Embedding W) (g : Ground) (f : Nat × (Setting W → Doing W)) : Prop :=
  f.1 < g.items.length ∧ ∀ {s : Setting W} {S : Standing} {bound budget : Nat} {m : Machine W} {previous : Op}
    {q : Sequel W}, s.Fits env g bound → S.own = [] → GoesBack env g S bound q.returned → budget ≤ bound → S.Of g m →
    run env m (g.cursor f.1 previous) budget = (f.2 s m budget).followed q

/-- A piece is evaluated as items run wherever they stand, if the instruction before is one that `before` allows; the
last instruction of a piece that is left at its end is one that `after` allows. -/
structure Means (env : Embedding W) (before : Op → Prop) (a : Piece W) (xs : List Item) (after : Op → Prop) : Prop where
  size : a.size = xs.length
  run : ∀ {g : Ground} {s : Setting W} {S : Standing} {bound budget i : Nat} {m : Machine W} {previous : Op}
    {q : Sequel W}, s.Fits env g bound → g.Holds i xs → q.Fits env g S bound (i + xs.length) after →
    budget ≤ bound → before previous → S.Of g m →
    Machine.run env m (g.cursor i previous) budget = (a.run s i m budget).followed q
  functions : ∀ {g : Ground} {i : Nat}, g.Holds i xs → ∀ f ∈ a.functions i, FunctionMeans env g f

/-- After any instruction. -/
def anyOp : Op → Prop := fun _ => True

/-- A piece that is not left at its end. -/
def noOp : Op → Prop := fun _ => False

/-- After any instruction that reads nothing. -/
def unread : Op → Prop := fun op => op ≠ .get

theorem unread_of {op : Op} (h : decide (op = .get) = false) : unread op :=
  of_decide_eq_false h

end Fits

namespace Means

open Machine

variable {W : Type} {env : Embedding W} {before middle after after' : Op → Prop} {a b : Piece W} {xs ys : List Item}

theorem mono (h : Means env before a xs after) (hafter : ∀ op, after op → after' op) : Means env before a xs after' :=
  ⟨h.size, fun hs hholds hq => h.run hs hholds (hq.mono (Nat.le_refl _) hafter), h.functions⟩

theorem toAny (h : Means env before a xs after) : Means env before a xs anyOp :=
  h.mono fun _ _ => trivial

theorem toUnread {op : Op} (h : Means env before a xs (· = op)) (hop : decide (op = .get) = false) :
    Means env before a xs unread :=
  h.mono fun _ hsame => hsame ▸ unread_of hop

/-- Behind fewer instructions. -/
theorem within {before' : Op → Prop} (h : Means env before a xs after) (hbefore : ∀ op, before' op → before op) :
    Means env before' a xs after :=
  ⟨h.size, fun hs hholds hq hbudget hprevious => h.run hs hholds hq hbudget (hbefore _ hprevious), h.functions⟩

theorem ofAny (h : Means env anyOp a xs after) : Means env before a xs after :=
  h.within fun _ _ => trivial

theorem cast (h : Means env before a xs after) (heq : xs = ys) : Means env before a ys after :=
  heq ▸ h

theorem nothing : Means env before (.nothing : Piece W) [] before :=
  ⟨rfl, fun _ _ hq hbudget hprevious hm => hq.through hbudget hprevious hm, fun _ _ hf => absurd hf List.not_mem_nil⟩

theorem seq (h : Means env before a xs middle) (h' : Means env middle b ys after) :
    Means env before (a ++ b) (xs ++ ys) after := by
  refine ⟨?_, fun {g s S bound budget i m previous q} hs hholds hq hbudget hprevious hm => ?_,
    fun {g i} hholds f hf => ?_⟩
  · rw [List.length_append, ← h.size, ← h'.size]
    rfl
  · show _ = ((a.run s i m budget).andThen (b.run s (i + a.size))).followed q
    rw [List.length_append, ← Nat.add_assoc] at hq
    rw [Exit.followed_andThen]
    refine h.run hs hholds.left (hq.before fun hbudget' hmiddle hm' => ?_) hbudget hprevious hm
    rw [h.size]
    exact h'.run hs hholds.right hq hbudget' hmiddle hm'
  · rcases List.mem_append.mp hf with hf | hf
    · exact h.functions hholds.left f hf
    · rw [h.size] at hf
      exact h'.functions hholds.right f hf

end Means

/-! ## Steps -/

section Steps

open Machine

variable {W α : Type} {env : Embedding W} {g : Ground} {s : Setting W} {S : Standing} {q : Sequel W}
  {m n : Machine W} {budget i firstEnd next : Nat} {previous : Op} {ins : Instr}

/-- A step of an evaluation is a step of a run: an instruction that does the same work, and goes on where the step
does. -/
theorem run_step (hoffset : s.offset = g.offset) {c : Cursor} (hc : c = g.cursor i previous)
    (hread : Decoded.read g.unit (g.place i) = .instr ins firstEnd next) {work : Work W α} {flow : α → Flow}
    {doing : α → Doing W} (hcarry : carryOut env c ins firstEnd next = work >>= fun a => pure (flow a))
    (hnext : ∀ {a : α} {n : Machine W} {rest : Nat}, budget = rest + 1 → work m.collectIfNeeded = .ok a n →
      carryOut env c ins firstEnd next m.collectIfNeeded = .ok (flow a) n →
      proceed env c.offset rest (Machine.settle c ins.op (flow a) n) = (doing a n rest).followed q) :
    run env m c budget = (s.step i work doing m budget).followed q := by
  cases budget with
  | zero => rfl
  | succ rest =>
    have hadvance : advance env c = carryOut env c ins firstEnd next >>= Machine.settle c ins.op :=
      advance_eq env (by rw [hc]; exact hread)
    have hsite : c.offset = s.offset i := by rw [hc, hoffset]; rfl
    rw [run_succ, Setting.step]
    split
    · rfl
    · have hcarried : carryOut env c ins firstEnd next m.collectIfNeeded
          = (work >>= fun a => pure (flow a)) m.collectIfNeeded := by rw [hcarry]
      rw [hadvance, bind_eq]
      rw [bind_eq] at hcarried
      cases hwork : work m.collectIfNeeded with
      | error e n =>
        rw [hwork] at hcarried
        rw [hcarried, ← hsite]
        rfl
      | ok a n =>
        rw [hwork] at hcarried
        have hdone : carryOut env c ins firstEnd next m.collectIfNeeded = .ok (flow a) n := hcarried
        rw [hdone]
        exact hnext rfl hwork hdone

/-- What an instruction that leaves calls and loops alone does, a machine stays in the call with. -/
theorem Standing.Of.carried (hm : S.Of g m) {c : Cursor} {flow : Flow}
    (hdone : carryOut env c ins firstEnd next m.collectIfNeeded = .ok flow n) :
    m.collectIfNeeded.SameFooting n → S.Of g n := by
  intro hsame
  have hprogram := (quiet_carryOut env c ins firstEnd next m.collectIfNeeded).1
  rw [hdone] at hprogram
  exact hm.collectIfNeeded.next hsame (hprogram ▸ .refl _)

theorem sameFooting_of_carried {c : Cursor} {flow : Flow} (hcall : ins.isCall = false) (hloop : ins.isLoop = false)
    (hdone : carryOut env c ins firstEnd next m = .ok flow n) : m.SameFooting n := by
  have hsame := leavesCalls_carryOut env c hcall hloop firstEnd next m
  rwa [hdone] at hsame

end Steps

namespace Means

open Machine

variable {W : Type} {env : Embedding W} {before after : Op → Prop} {a b : Piece W} {xs ys : List Item}

/-- An instruction that does some work and goes on behind itself. -/
theorem single {ins : Instr} {hplain : ins.isPlain = true} {work : Work W Unit} (hcall : ins.isCall = false)
    (hloop : ins.isLoop = false)
    (hcarry : ∀ {c : Cursor} {firstEnd next : Nat}, before c.previous →
      carryOut env c ins firstEnd next = work >>= fun _ => pure (.goOn next)) :
    Means env before (.single work) [.plain ins hplain] (· = ins.op) := by
  refine ⟨rfl, fun {g s S bound budget i m previous q} hs hholds hq hbudget hprevious hm => ?_,
    fun _ _ hf => absurd hf List.not_mem_nil⟩
  obtain ⟨firstEnd, hread⟩ := g.stands.read hholds.head
  refine run_step hs.offset rfl hread (hcarry hprevious) fun hrest _ hdone => ?_
  have hsame := sameFooting_of_carried hcall hloop hdone
  exact hq.through (by omega) rfl (hm.carried hdone hsame)

end Means

/-! ## Jumps -/

section Jumps

open Machine Evaluation
open Code (Jump)

variable {W : Type}

/-- A jump does what a test does, and jumps if that says no. -/
def Tests (env : Embedding W) (j : Jump) (test : Work W Bool) : Prop :=
  ∀ (c : Cursor) (distance firstEnd next : Nat), carryOut env c (j.instr distance) firstEnd next
    = test >>= fun enters => pure (.goOn (if enters then next else next + distance))

theorem tests_onFalse (env : Embedding W) : Tests env .onFalse condition := by
  intro c distance firstEnd next
  show (jumpIf false next distance : Work W Flow) = _
  funext m
  unfold jumpIf condition
  simp only [bind_eq, inspect]
  cases pop m with
  | error e n => rfl
  | ok v n =>
    dsimp only
    cases n.heap.truthy v <;> rfl

theorem tests_kept (env : Embedding W) {j : Jump} (wanted : Bool)
    (hj : ∀ distance, j.instr distance = if wanted then .jmpNeutralTrue distance else .jmpNeutralFalse distance) :
    Tests env j (topIs !wanted) := by
  intro c distance firstEnd next
  have hkeeping : carryOut env c (j.instr distance) firstEnd next
      = (jumpKeeping wanted next distance : Work W Flow) := by
    rw [hj]
    cases wanted <;> rfl
  rw [hkeeping]
  funext m
  unfold jumpKeeping topIs
  simp only [bind_eq, inspect]
  cases peek 0 m with
  | error e n => rfl
  | ok v n =>
    dsimp only
    cases n.heap.truthy v <;> cases wanted <;> rfl

theorem tests_onFalseKept (env : Embedding W) : Tests env .onFalseKept (topIs true) :=
  tests_kept env false fun _ => rfl

theorem tests_onTrueKept (env : Embedding W) : Tests env .onTrueKept (topIs false) :=
  tests_kept env true fun _ => rfl

end Jumps

namespace Means

open Machine Evaluation
open Code (Jump)

variable {W : Type} {env : Embedding W} {a b : Piece W} {xs ys : List Item} {j : Jump} {test : Work W Bool}
  {after : Op → Prop}

theorem guardedUpTo {last : Piece W} (ht : Tests env j test) (h : Means env anyOp a (xs ++ ys) after)
    (hlast : Means env unread last ys after) :
    Means env anyOp (.guardedUpTo test a last) (Code.Shape.guarded j xs ++ ys) after := by
  have hsize : a.size = xs.length + ys.length := by rw [h.size, List.length_append]
  have hlength : (Code.Shape.guarded j xs ++ ys).length = xs.length + ys.length + 1 := by
    simp only [Code.Shape.guarded, List.length_append, List.length_cons]
    omega
  refine ⟨?_, fun {g s S bound budget i m previous q} hs hholds hq hbudget hprevious hm => ?_,
    fun hholds f hf => h.functions hholds.tail f hf⟩
  · rw [hlength, ← hsize]
    rfl
  obtain ⟨distance, hread, htarget⟩ := g.stands.read hholds.head
  have hleft : (j.instr distance).isCall = false ∧ (j.instr distance).isLoop = false := by cases j <;> exact ⟨rfl, rfl⟩
  have hop : unread (j.instr distance).op := unread_of (by cases j <;> rfl)
  have hheld : g.Holds (i + 1) (xs ++ ys) := hholds.tail
  have hplace : i + 1 + a.size - last.size = i + 1 + xs.length := by
    rw [hsize, hlast.size]
    omega
  rw [hlength] at hq
  refine run_step hs.offset rfl hread (ht _ _ _ _) fun {enters n rest} hrest _ hdone => ?_
  have hn := hm.carried hdone (sameFooting_of_carried hleft.1 hleft.2 hdone)
  cases enters with
  | true =>
    rw [show i + (xs.length + ys.length + 1) = i + 1 + (xs ++ ys).length by rw [List.length_append]; omega] at hq
    exact h.run hs hheld hq (by omega) trivial hn
  | false =>
    rw [show i + (xs.length + ys.length + 1) = i + 1 + xs.length + ys.length by omega] at hq
    have hgo : Machine.run env n (g.cursor (i + 1 + xs.length) (j.instr distance).op) rest = _ :=
      hlast.run hs hheld.right hq (by omega) hop hn
    rw [Ground.cursor, ← htarget] at hgo
    show _ = (last.run s (i + 1 + a.size - last.size) n rest).followed q
    rw [hplace]
    exact hgo

theorem guarded (ht : Tests env j test) (h : Means env anyOp a xs anyOp) :
    Means env anyOp (.guarded test a) (Code.Shape.guarded j xs) anyOp :=
  (guardedUpTo ht (h.cast (List.append_nil xs).symm) nothing.toAny).cast (List.append_nil _)

/-- A jump over some items does nothing but a step. -/
theorem jumped {g : Ground} {s : Setting W} {S : Standing} {q : Sequel W} {budget i ahead : Nat} {m : Machine W}
    {previous : Op} (hs : s.offset = g.offset) (hitem : g.items[i]? = some (.jump .always ahead)) (hm : S.Of g m)
    (hnext : ∀ {n : Machine W} {rest : Nat}, rest < budget → S.Of g n →
      Machine.run env n (g.cursor (i + 1 + ahead) .jmp) rest = q.through n rest) :
    Machine.run env m (g.cursor i previous) budget = (s.step i (pure ()) (fun _ => .through) m budget).followed q := by
  obtain ⟨distance, hread, htarget⟩ := g.stands.read hitem
  have hcarry : carryOut env (g.cursor i previous) (Jump.always.instr distance) (g.place (i + 1)) (g.place (i + 1))
      = (pure () : Work W Unit) >>= fun _ => pure (.goOn (g.place (i + 1) + distance)) := rfl
  refine run_step hs rfl hread hcarry fun {a n rest} hrest _ hdone => ?_
  have hlt : rest < budget := by omega
  have hgo := hnext hlt (hm.carried hdone (sameFooting_of_carried rfl rfl hdone))
  rw [Ground.cursor, ← htarget] at hgo
  exact hgo

theorem choiceUpTo {last : Piece W} {zs : List Item} (ht : Tests env .onFalse test) (h : Means env anyOp a xs anyOp)
    (h' : Means env anyOp b (ys ++ zs) after) (hlast : Means env unread last zs after) :
    Means env anyOp (.choiceUpTo test a b last) (Code.Shape.choice xs ys ++ zs) after := by
  have hitems : Code.Shape.choice xs ys ++ zs
      = .jump .onFalse (xs.length + 1) :: (xs ++ .jump .always ys.length :: (ys ++ zs)) := by
    simp only [Code.Shape.choice, List.cons_append, List.append_assoc]
  have hsize : b.size = ys.length + zs.length := by rw [h'.size, List.length_append]
  have hlength : (Code.Shape.choice xs ys ++ zs).length = xs.length + (ys.length + zs.length) + 2 := by
    rw [hitems]
    simp only [List.length_cons, List.length_append]
    omega
  have hindex (i : Nat) : i + 1 + (xs.length + 1) = i + 2 + a.size := by
    rw [h.size]
    omega
  have hno {g : Ground} {i : Nat} (hholds : g.Holds i (Code.Shape.choice xs ys ++ zs)) :
      g.Holds (i + 2 + a.size) (ys ++ zs) := by
    rw [hitems] at hholds
    rw [← hindex]
    exact hholds.tail.right.tail
  refine ⟨?_, fun {g s S bound budget i m previous q} hs hholds hq hbudget hprevious hm => ?_,
    fun {g i} hholds f hf => ?_⟩
  · rw [hlength, ← h.size, ← hsize]
    rfl
  · have hheld := hitems ▸ hholds
    obtain ⟨distance, hread, htarget⟩ := g.stands.read hheld.head
    have hend : i + (Code.Shape.choice xs ys ++ zs).length = i + 2 + a.size + ys.length + zs.length := by
      rw [hlength, h.size]
      omega
    have hplace : i + 2 + a.size + b.size - last.size = i + 2 + a.size + ys.length := by
      rw [hsize, hlast.size]
      omega
    rw [hend] at hq
    refine run_step hs.offset rfl hread (ht _ _ _ _) fun {holds n rest} hrest _ hdone => ?_
    have hn := hm.carried hdone (sameFooting_of_carried rfl rfl hdone)
    cases holds with
    | true =>
      -- behind the first piece a jump passes over the second one, up to what both end with
      show _ = (((a.run s (i + 1) n rest).andThen (s.step (i + 1 + a.size) (pure ()) fun _ => .through)).andThen
        (last.run s (i + 2 + a.size + b.size - last.size))).followed q
      rw [hplace, Exit.followed_andThen, Exit.followed_andThen]
      have hmet : (q.after (last.run s (i + 2 + a.size + ys.length))).Fits env g S bound (i + 2 + a.size + ys.length)
          unread :=
        hq.before fun hbudget' hprevious' hm' => hlast.run hs (hno hholds).right hq hbudget' hprevious' hm'
      generalize q.after (last.run s (i + 2 + a.size + ys.length)) = met at hmet ⊢
      refine h.run hs hheld.tail.left (hmet.before fun hbudget' _ hm' => ?_) (by omega) trivial hn
      rw [h.size]
      refine jumped hs.offset hheld.tail.right.head hm' fun hrest' hn' => ?_
      rw [Nat.add_assoc (i + 1), hindex]
      exact hmet.through (Nat.le_trans (Nat.le_of_lt hrest') hbudget') (unread_of rfl) hn'
    | false =>
      rw [Nat.add_assoc, ← List.length_append] at hq
      have hgo : Machine.run env n (g.cursor (i + 2 + a.size) .jmpFalse) rest = _ :=
        h'.run hs (hno hholds) hq (by omega) trivial hn
      rw [Ground.cursor, ← hindex, ← htarget, hindex] at hgo
      exact hgo
  · rcases List.mem_append.mp hf with hf | hf
    · exact h.functions (hitems ▸ hholds).tail.left f hf
    · exact h'.functions (hno hholds) f hf

theorem choice (ht : Tests env .onFalse test) (h : Means env anyOp a xs anyOp) (h' : Means env anyOp b ys anyOp) :
    Means env anyOp (.choice test a b) (Code.Shape.choice xs ys) anyOp := by
  have hchoice := (choiceUpTo ht h (h'.cast (List.append_nil ys).symm) nothing.toAny).cast (List.append_nil _)
  rwa [Piece.choiceUpTo_nothing] at hchoice

end Means

end ScriptEngine
