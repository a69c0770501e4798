import ScriptEngine.Proofs.Code.Charts
import ScriptEngine.Proofs.Machine.Instructions
import ScriptEngine.Proofs.Machine.Sessions
/-!
The code of programs.

The code of every program runs as `Receiving` evaluates its tree, whatever the program calls and assigns to
(`means_expr`, `means_stmt` and their companions, one for each kind of tree), and so does a whole unit
(`execute_eq_receiving`). Behind the code of a callee stands the start of a call, to which jumps in the callee go.
-/

namespace ScriptEngine

open Code (Item Op Program Stands Instr Decoded)

/-! ## Callees -/

/-- The items that note a call, if there is one. -/
def Code.Shape.opening (called : Bool) : List Item :=
  bif called then [.plain .args (@rfl Bool true)] else []

namespace Means

open Machine

variable {W : Type} {env : Embedding W} {before after : Op → Prop} {a : Piece W} {xs : List Item} {last : Op}

/-- A call is noted on nothing if the last instruction was not a look-up. -/
theorem opening (called : Bool) : Means env unread (Receiving.opening called) (Code.Shape.opening called) anyOp := by
  cases called with
  | false => exact nothing.toAny
  | true => exact (one (args env .nop).toAny).within fun op hop => ⟨fun h => absurd h hop, fun h => by cases h⟩

theorem noted (h : Means env before a xs (· = last)) (called : Bool) :
    Means env before (Receiving.noted last a called) (xs ++ Code.Shape.opening called) anyOp := by
  cases called with
  | false => exact h.toAny.cast (List.append_nil xs).symm
  | true => exact h.seq ((one (args env last).toAny).within fun op hop => by rw [hop])

theorem notedUnread (h : Means env before a xs unread) (called : Bool) :
    Means env before (Receiving.noted .nop a called) (xs ++ Code.Shape.opening called) anyOp := by
  cases called with
  | false => exact h.toAny.cast (List.append_nil xs).symm
  | true => exact h.seq (opening true)

/-- What is not called ends with its own code. -/
theorem value (h : Means env before a (xs ++ Code.Shape.opening false) after) : Means env before a xs after :=
  h.cast (List.append_nil xs)

end Means

/-! ## Trees -/

section Trees

open Machine Source

variable {W : Type} {env : Embedding W}

open Means in
mutual

/-- The code of an expression, with the start of a call behind it where there is one. -/
theorem means_expr (henv : env.Steady) : ∀ (e : Expr) (called : Bool),
    Means env anyOp (Receiving.expr env e called) (Code.Shape.expr e ++ Code.Shape.opening called) anyOp
  | .literal l line, called => notedUnread (one (literal env l)) called
  | .variable name line read, called =>
    noted ((pushStr env name).toAny.line ((findScope env).line (fetch env .findScope read))) called
  | .paren inner, called => means_expr henv inner called
  | .member object name line read, called => by
    have hread := (pushStr env name).toAny.line ((swap env).line (fetch env .swap read))
    exact noted (((means_expr henv object false).value.seq hread).cast (by simp [Code.Shape.expr])) called
  | .index object key line read, called => by
    have hboth := (means_expr henv object false).value.seq (means_expr henv key false).value
    exact noted ((hboth.seq ((swap env).line (fetch env .swap read))).cast (by simp [Code.Shape.expr])) called
  | .call callee line arguments closeLine, called =>
    notedUnread (((means_expr henv callee true).seq (means_exprs henv arguments)).seq (call henv)) called
  | .unary op inner line, called =>
    notedUnread ((means_expr henv inner false).value.seq (one ((operator env op).toUnread rfl))) called
  | .binary op left right line, called =>
    notedUnread (((means_expr henv left false).value.seq (means_expr henv right false).value).seq
      (one ((operator env op).toUnread rfl))) called
  | .both left right line, called => by
    have hsecond : Means env anyOp (.line [Evaluation.drop] ++ Receiving.expr env right called)
        (.plain .drop :: Code.Shape.expr right ++ Code.Shape.opening called) anyOp :=
      (one (drop env).toAny).seq (means_expr henv right called)
    have hguarded := hsecond.guardedUpTo (tests_onFalseKept env) (opening called)
    exact ((means_expr henv left false).value.seq hguarded).cast (List.append_assoc _ _ _).symm
  | .either left right line, called => by
    have hsecond : Means env anyOp (.line [Evaluation.drop] ++ Receiving.expr env right called)
        (.plain .drop :: Code.Shape.expr right ++ Code.Shape.opening called) anyOp :=
      (one (drop env).toAny).seq (means_expr henv right called)
    have hguarded := hsecond.guardedUpTo (tests_onTrueKept env) (opening called)
    exact ((means_expr henv left false).value.seq hguarded).cast (List.append_assoc _ _ _).symm
  | .conditional test yes no line colonLine, called => by
    have hsecond : Means env anyOp (.line [Evaluation.drop] ++ Receiving.expr env no called)
        (.plain .drop :: Code.Shape.expr no ++ Code.Shape.opening called) anyOp :=
      (one (drop env).toAny).seq (means_expr henv no called)
    have hchoice := choiceUpTo (tests_onFalse env) (means_expr henv yes false).value hsecond (opening called)
    exact ((means_expr henv test false).value.seq hchoice).cast (List.append_assoc _ _ _).symm
  | .assign op target new line, called =>
    notedUnread (((means_expr henv target false).value.seq (means_expr henv new false).value).seq
      (one ((operator env op).toUnread rfl))) called
  | .function name line paramsLine params code endLine, called => by
    have hopen := (newScope env).toAny.line (parameters env params 0)
    have hcode := (hopen.seq (means_body henv code)).seq «return»
    exact notedUnread (named hcode.function) called
  | .object line all, called =>
    notedUnread ((one ((pushObj env).toUnread rfl)).seq (means_entries henv all)) called
  | .array line all, called =>
    notedUnread ((one ((pushArray env).toUnread rfl)).seq (means_elements henv all)) called

theorem means_exprs (henv : env.Steady) : ∀ arguments : Exprs,
    Means env anyOp (Receiving.exprs env arguments) (Code.Shape.exprs arguments) anyOp
  | .nil => nothing
  | .cons first rest => (means_expr henv first false).value.seq (means_exprs henv rest)

theorem means_entries (henv : env.Steady) : ∀ all : Entries,
    Means env unread (Receiving.entries env all) (Code.Shape.entries all) unread
  | .nil => nothing
  | .cons key keyLine value line rest => by
    have hkey := (duplicate env).toAny.line ((pushStr env key).toAny.line (one (swap env).toAny))
    have hassign := (operator env .assign).toAny.line (one ((drop env).toUnread rfl))
    exact (((hkey.seq (means_expr henv value false).value).seq hassign).seq (means_entries henv rest)).ofAny

theorem means_elements (henv : env.Steady) : ∀ all : Elements,
    Means env unread (Receiving.elements env all) (Code.Shape.elements all) unread
  | .nil => nothing
  | .cons startLine value line rest => by
    have hvalue := (one (duplicate env).toAny).seq (means_expr henv value false).value
    exact ((hvalue.seq (one ((append env).toUnread rfl))).seq (means_elements henv rest)).ofAny

theorem means_stmt (henv : env.Steady) : ∀ s : Stmt,
    Means env anyOp (Receiving.stmt env s) (Code.Shape.stmt s) anyOp
  | .empty line => one (pushUndef env).toAny
  | .declare first rest => (means_declarator henv first).seq (means_declarators henv rest)
  | .block line code endLine =>
    ((one (newScope env).toAny).seq (means_body henv code)).seq (one (delScope env).toAny)
  | .returnNone endLine => (((pushUndef env).toAny.line (one (setRetVal env).toAny)).seq «return»).toAny
  | .returnValue value endLine =>
    ((means_expr henv value false).value.seq ((one (setRetVal env).toAny).seq «return»)).toAny
  | .break line => ((one (pushUndef env).toAny).seq «break»).toAny
  | .continue line => («continue»).toAny
  | .exprs first rest => (means_expr henv first false).value.seq (means_commas henv rest)
  | .ifThen test line yes =>
    (means_expr henv test false).value.seq ((means_stmt henv yes).guarded (tests_onFalse env))
  | .ifElse test line yes elseLine no => by
    have hsecond := (one (drop env).toAny).seq (means_stmt henv no)
    exact (means_expr henv test false).value.seq (choice (tests_onFalse env) (means_stmt henv yes) hsecond)
  | .while line test bodyLine code endLine => by
    have hround := round (means_expr henv test false).value (means_loopBody henv code)
    have hloop := ((one (newScope env).toAny).seq hround.loop).seq (one (delScope env).toAny)
    exact hloop.cast (by rw [← Code.Shape.loop_eq]; rfl)
  | .for line start testLine test step bodyLine code endLine => by
    have hround := round (means_clause henv test (one (pushTrue env).toAny)) (means_loopBody henv code)
    have hloop := countingLoop ((means_forStart henv start).seq (one (drop env).toAny))
      ((means_clause henv step (one (pushUndef env).toAny)).seq (one (drop env).toAny)) hround
    exact (((one (newScope env).toAny).seq hloop).seq (one (delScope env).toAny)).cast
      (by rw [← Code.Shape.countingLoop_eq]; rfl)
  | .forIn line isDeclared name nameLine object bodyLine code endLine => by
    have hname : Means env anyOp (if isDeclared then Evaluation.declared name else .nothing)
        (if isDeclared then Code.Shape.declare name else []) anyOp := by
      cases isDeclared
      · exact nothing
      · exact declared env name
    have hobject := (one (pushStr env name).toAny).seq (means_expr henv object false).value
    have hwalk := (forInNext env).toAny.line (one (duplicate env).toAny)
    have hround := (round hwalk (means_loopBody henv code)).loop
    have hloop := (((one (newScope env).toAny).seq hname).seq hobject).seq ((one (pushUndef env).toAny).seq hround)
    have hbehind := (drop env).toAny.line ((drop env).toAny.line ((drop env).toAny.line ((drop env).toAny.line
      ((pushUndef env).toAny.line (one (delScope env).toAny)))))
    exact (hloop.seq hbehind).cast (by rw [← Code.Shape.loop_eq]; simp [Code.Shape.stmt])

theorem means_declarator (henv : env.Steady) : ∀ d : Declarator,
    Means env anyOp (Receiving.declarator env d) (Code.Shape.declarator d) anyOp
  | .plain name line endLine => (declared env name).seq (one (pushUndef env).toAny)
  | .init name line valueLine value endLine => by
    have htarget := (declared env name).seq (reference env name).toAny
    exact (htarget.seq (means_expr henv value false).value).seq (one (operator env .assign).toAny)

theorem means_declarators (henv : env.Steady) : ∀ ds : Declarators,
    Means env anyOp (Receiving.declarators env ds) (Code.Shape.declarators ds) anyOp
  | .nil => nothing
  | .cons _ d rest =>
    ((one (drop env).toAny).seq (means_declarator henv d)).seq (means_declarators henv rest)

theorem means_commas (henv : env.Steady) : ∀ cs : Commas,
    Means env anyOp (Receiving.commas env cs) (Code.Shape.commas cs) anyOp
  | .nil => nothing
  | .cons _ next rest =>
    ((one (drop env).toAny).seq (means_expr henv next false).value).seq (means_commas henv rest)

theorem means_body (henv : env.Steady) : ∀ code : Body,
    Means env anyOp (Receiving.body env code) (Code.Shape.body code) anyOp
  | .none _ => one (pushUndef env).toAny
  | .some first rest => (means_stmt henv first).seq (means_stmts henv rest)

theorem means_stmts (henv : env.Steady) : ∀ ss : Stmts,
    Means env anyOp (Receiving.stmts env ss) (Code.Shape.stmts ss) anyOp
  | .nil => nothing
  | .cons _ next rest => ((one (drop env).toAny).seq (means_stmt henv next)).seq (means_stmts henv rest)

theorem means_loopBody (henv : env.Steady) : ∀ code : LoopBody,
    Means env anyOp (Receiving.loopBody env code) (Code.Shape.loopBody code) anyOp
  | .braces code => means_body henv code
  | .single s => means_stmt henv s

theorem means_forStart (henv : env.Steady) : ∀ start : ForStart,
    Means env anyOp (Receiving.forStart env start) (Code.Shape.forStart start) anyOp
  | .none _ => one (pushUndef env).toAny
  | .declare first rest => (means_declarator henv first).seq (means_declarators henv rest)
  | .expr start => (means_expr henv start false).value

theorem means_clause (henv : env.Steady) : ∀ (c : Clause) {absent : Work W Unit} {ins : Instr}
    {hplain : ins.isPlain = true} (_ : Means env anyOp (.line [absent]) [.plain ins hplain] anyOp),
    Means env anyOp (Receiving.clause env c absent) (Code.Shape.clause c ins hplain) anyOp
  | .none _, _, _, _, habsent => habsent
  | .expr inner, _, _, _, _ => (means_expr henv inner false).value

end

end Trees

/-! ## Programs -/

section Programs

open Machine Source
open Code (Placed)

variable {W : Type} {env : Embedding W}

/-- Nothing follows a program. -/
def Sequel.nothing : Sequel W :=
  ⟨fun _ _ => .outOfBudget, fun _ _ => .outOfBudget, fun _ _ => .outOfBudget, fun _ _ => .outOfBudget⟩

theorem Exit.followed_nothing (x : Exit W) : x.followed .nothing = x.outcome := by
  cases x <;> rfl

/-- The ground of a unit at an offset. -/
def Code.Placed.ground {script : Script} {unit : Array UInt8} {place : Nat → Nat} (h : Placed script unit place)
    (base : Nat) : Ground :=
  ⟨base, unit, Code.Shape.script script, place, h.stands, h.first⟩

/-- An execution starts in a call of its own, which goes back nowhere. -/
theorem exists_standing {g : Ground} {m : Machine W} (hcommitted : m.program.Committed)
    (hhas : m.program.Has g.base g.unit) (receiver : Value) (args : List Value) :
    ∃ S : Standing, S.own = [] ∧ S.frame.callSite = none ∧ S.Of g (m.enterExecution receiver args) := by
  refine ⟨⟨⟨none, m.scopes.size, m.loops.size, m.stack.size⟩, m.skeleton.returns, [], m.skeleton.loops⟩, rfl, rfl,
    ?_, rfl, ?_, hcommitted, hhas⟩
  · show (m.frames.push _).toList.reverse.map Frame.bare = _
    rw [Array.toList_push, List.reverse_append]
    rfl
  · show m.loops.size = m.loops.toList.reverse.length
    rw [List.length_reverse, Array.length_toList]

/-- A program is evaluated as its code runs. -/
theorem run_script (henv : env.Steady) {script : Script} {g : Ground} (hitems : g.items = Code.Shape.script script)
    {S : Standing} (hown : S.own = []) (hsite : S.frame.callSite = none) {budget depth : Nat} (hdepth : budget ≤ depth)
    {m : Machine W} {previous : Op} (hm : S.Of g m) :
    run env m (g.cursor 0 previous) budget
      = ((Receiving.script env script).run
          ⟨g.offset, Evaluation.calls env g.offset ((Receiving.script env script).functions 0) depth⟩ 0 m
          budget).outcome := by
  have hbody := means_body henv script.body
  have hholds : g.Holds 0 (Code.Shape.body script.body) := by
    rw [Code.Shape.script] at hitems
    refine ⟨by rw [hitems, List.length_append, List.length_singleton]; omega, fun j hj => ?_⟩
    rw [hitems, Nat.zero_add, List.getElem?_append_left hj]
  have hfunctions : ∀ f ∈ (Receiving.script env script).functions 0, FunctionMeans env g f := by
    intro f hf
    rcases List.mem_append.mp hf with hf | hf
    · exact hbody.functions hholds f hf
    · exact absurd hf List.not_mem_nil
  have hs : Setting.Fits ⟨g.offset, Evaluation.calls env g.offset ((Receiving.script env script).functions 0) depth⟩
      env g budget := ⟨rfl, (callMeans_calls henv hfunctions depth).mono hdepth⟩
  have hexit : g.items[0 + (Code.Shape.body script.body).length]? = some (.plain .exit) := by
    rw [hitems, Code.Shape.script, Nat.zero_add, List.getElem?_append_right (Nat.le_refl _), Nat.sub_self]
    rfl
  rw [← Exit.followed_nothing]
  show _ = ((Receiving.body env script.body).run _ 0 m budget |>.andThen
    ((Piece.exit : Piece W).run _ (0 + (Receiving.body env script.body).size))).followed _
  rw [Exit.followed_andThen]
  refine hbody.run hs hholds ⟨fun _ _ _ => ?_, fun hloop => ?_, fun site hcaller => ?_⟩ (Nat.le_refl _) trivial hm
  · rw [hbody.size]
    exact Means.exited rfl hexit
  · rw [hown] at hloop
    cases hloop
  · rw [hsite] at hcaller
    cases hcaller

variable {script : Script} {unit : Array UInt8} {place : Nat → Nat} {m : Machine W} {base : Nat}

/-- A run of a unit starts with the instruction for nothing in front of its code. -/
theorem run_placed (henv : env.Steady) (hplaced : Placed script unit place) {S : Standing} (hown : S.own = [])
    (hsite : S.frame.callSite = none) (hm : S.Of (hplaced.ground base) m) (previous : Op) (budget : Nat) :
    run env m ⟨unit, base, place 0, 0, previous⟩ budget
      = Receiving.evaluate env (fun i => base + place i) script m budget := by
  cases budget with
  | zero => rfl
  | succ budget =>
    have hadvance : advance env ⟨unit, base, place 0, 0, previous⟩ m.collectIfNeeded
        = .ok (.goOn ((hplaced.ground base).cursor 0 .header)) m.collectIfNeeded := by
      rw [advance_eq env hplaced.header]
      rfl
    rw [run_succ, hadvance, Receiving.evaluate, Setting.step]
    split
    · rfl
    · exact run_script henv rfl hown hsite (Nat.le_succ budget) hm.collectIfNeeded

theorem load_placed (hplaced : Placed script unit place) (hcommitted : m.program.Committed)
    (hhas : m.program.Has base unit) : Cursor.load m.program base .nop = .ok ⟨unit, base, place 0, 0, .nop⟩ := by
  obtain ⟨header, hheader, hfirst⟩ := hplaced.first
  have hsize := Nat.lt_trans (hplaced.headerSize_lt_place (i := 0) (by simp [Code.Shape.script]))
    (hplaced.stands.place_lt_size (by simp [Code.Shape.script]))
  rw [hcommitted.load_ok hhas (Nat.le_refl _) (by omega) hheader, Nat.sub_self, hfirst]

/-- Running a unit is evaluating the program that it was compiled from, whatever that calls and assigns to. -/
theorem execute_eq_receiving (henv : env.Steady) (hplaced : Placed script unit place)
    (hcommitted : m.program.Committed) (hhas : m.program.Has base unit) (receiver : Value) (args : List Value)
    (budget : Nat) :
    execute env m base receiver args (budget + 1)
      = (Receiving.evaluate env (fun i => base + place i) script (m.enterExecution receiver args) budget).andThen
          (endExecution m.depths m.receiver) := by
  obtain ⟨S, hown, hsite, hm⟩ := exists_standing (g := hplaced.ground base) hcommitted hhas receiver args
  rw [execute_succ, load_placed hplaced hcommitted hhas]
  exact congrArg (Outcome.andThen · _) (run_placed henv hplaced hown hsite hm .nop budget)

/-- The unit of a source, its tree, and a machine that has no other code. -/
def sourceMachine (source : String) : Except Error (Array UInt8 × Script × Machine Unit) := do
  let unit ← Code.compile "t.js" source 1
  let script ← parseScript source
  let m ← new {} ⟨"", none⟩ ()
  let (program, _) ← m.program.commit unit
  return (unit, script, { m with program := program })

theorem of_sourceMachine {source : String} {unit : Array UInt8} {script : Script} {m : Machine Unit}
    (h : sourceMachine source = .ok (unit, script, m)) :
    Code.compile "t.js" source 1 = .ok unit ∧ parseScript source = .ok script
      ∧ m.program.Committed ∧ m.program.Has 0 unit := by
  unfold sourceMachine at h
  cases hcompile : Code.compile "t.js" source 1 with
  | error e =>
    rw [hcompile] at h
    cases h
  | ok unit' =>
    cases hparse : parseScript source with
    | error e =>
      rw [hcompile, hparse] at h
      cases h
    | ok script' =>
      cases hnew : new {} ⟨"", none⟩ () with
      | error e =>
        rw [hcompile, hparse, hnew] at h
        cases h
      | ok start =>
        cases hcommit : start.program.commit unit' with
        | error e =>
          rw [hcompile, hparse, hnew] at h
          simp only [hcommit, bind, Except.bind] at h
          cases h
        | ok committed =>
          rw [hcompile, hparse, hnew] at h
          simp only [hcommit, bind, Except.bind, pure, Except.pure, Except.ok.injEq, Prod.mk.injEq] at h
          obtain ⟨rfl, rfl, rfl⟩ := h
          rw [program_new hnew] at hcommit
          obtain ⟨part, hpart, hprogram, -⟩ := Code.Program.commit_eq hcommit
          obtain ⟨hstart, hdata, -⟩ := Code.Program.ofUnit?_eq hpart
          have hcommitted := (Code.Program.grows_commit hcommit).committed Code.Program.committed_empty
          refine ⟨rfl, rfl, hcommitted, part, ?_, hstart, hdata⟩
          rw [hprogram]
          exact Array.mem_push_self

end Programs

end ScriptEngine
