import ScriptEngine.Proofs.Machine.Programs
import ScriptEngine.Proofs.Source.Callees
import ScriptEngine.Proofs.Source.Precedence
/-!
The meaning of compiled programs.

The code of a whole program runs as its tree is evaluated (`execute_eq_evaluate`). The code runs as `Receiving`
evaluates the tree, which notes a call where its callee ends; where variables and members only are called, that is
behind a look-up, and it is the same evaluation (`receiving_expr`, `receiving_stmt` and their companions, one for each
kind of tree).
-/

namespace ScriptEngine

/-! ## Trees -/

section Trees

open Source
open Code (Op)

/-- What is called is a variable or a member. -/
theorem uncalled {called value named : Bool} (hcalled : called = true → value = true ∧ named = true)
    (hnamed : named = false) : called = false := by
  cases called with
  | false => rfl
  | true => exact absurd (hnamed.symm.trans (hcalled rfl).2) Bool.false_ne_true

variable {W : Type}

/-- What is called is read. -/
theorem noted_lastOf {called value named : Bool} (hcalled : called = true → value = true ∧ named = true)
    {read : Option Nat} (hread : read.isSome = value) (previous : Op) (a : Piece W) :
    Receiving.noted (Receiving.lastOf previous read) a called = Receiving.noted .get a called := by
  cases called with
  | false => rfl
  | true =>
    obtain ⟨line, rfl⟩ := Option.isSome_iff_exists.mp (hread.trans (hcalled rfl).1)
    rfl

variable (env : Embedding W)

mutual

/-- A call of a variable or a member is noted behind its look-up. -/
theorem receiving_expr : ∀ (e : Expr) {value : Bool} (called : Bool) (_ : Settled.expr value e)
    (_ : Callees.expr e = true) (_ : called = true → value = true ∧ e.isNamed = true),
    Receiving.expr env e called = Receiving.noted .get (Evaluation.expr env e) called
  | .literal l line, _, called, _, _, hcalled => by
    rw [uncalled hcalled rfl]
    rfl
  | .variable name line read, _, called, h, _, hcalled => noted_lastOf hcalled h .findScope _
  | .paren inner, _, called, h, hc, hcalled =>
    receiving_expr inner called h.2 hc fun hyes => ⟨rfl, (hcalled hyes).2⟩
  | .member object name line read, _, called, h, hc, hcalled => by
    obtain ⟨hread, hobject⟩ := h
    rw [Receiving.expr, receiving_expr object false hobject hc nofun]
    exact noted_lastOf hcalled hread .swap _
  | .index object key line read, _, called, h, hc, hcalled => by
    obtain ⟨hread, hobject, hkey⟩ := h
    obtain ⟨hc, hc'⟩ := Bool.and_eq_true_iff.mp hc
    rw [Receiving.expr, receiving_expr object false hobject hc nofun, receiving_expr key false hkey hc' nofun]
    exact noted_lastOf hcalled hread .swap _
  | .call callee line arguments closeLine, _, called, h, hc, hcalled => by
    obtain ⟨-, hcallee, harguments⟩ := h
    simp only [Callees.expr, Bool.and_eq_true] at hc
    obtain ⟨⟨hnamed, hc⟩, hc'⟩ := hc
    rw [uncalled hcalled rfl, Receiving.expr, receiving_expr callee true hcallee hc fun _ => ⟨rfl, hnamed⟩,
      receiving_exprs arguments harguments hc']
    rfl
  | .unary op inner line, _, called, h, hc, hcalled => by
    obtain ⟨-, -, hinner⟩ := h
    rw [uncalled hcalled rfl, Receiving.expr, receiving_expr inner false hinner hc nofun]
    rfl
  | .binary op left right line, _, called, h, hc, hcalled => by
    obtain ⟨-, -, hleft, hright⟩ := h
    obtain ⟨hc, hc'⟩ := Bool.and_eq_true_iff.mp hc
    rw [uncalled hcalled rfl, Receiving.expr, receiving_expr left false hleft hc nofun,
      receiving_expr right false hright hc' nofun]
    rfl
  | .both left right line, _, called, h, hc, hcalled => by
    obtain ⟨-, hleft, hright⟩ := h
    obtain ⟨hc, hc'⟩ := Bool.and_eq_true_iff.mp hc
    rw [uncalled hcalled rfl, Receiving.expr, receiving_expr left false hleft hc nofun,
      receiving_expr right false hright hc' nofun]
    rfl
  | .either left right line, _, called, h, hc, hcalled => by
    obtain ⟨-, hleft, hright⟩ := h
    obtain ⟨hc, hc'⟩ := Bool.and_eq_true_iff.mp hc
    rw [uncalled hcalled rfl, Receiving.expr, receiving_expr left false hleft hc nofun,
      receiving_expr right false hright hc' nofun]
    rfl
  | .conditional test yes no line colonLine, _, called, h, hc, hcalled => by
    obtain ⟨-, htest, hyes, hno⟩ := h
    simp only [Callees.expr, Bool.and_eq_true] at hc
    rw [uncalled hcalled rfl, Receiving.expr, Receiving.opening, Piece.choiceUpTo_nothing,
      receiving_expr test false htest hc.1.1 nofun, receiving_expr yes false hyes hc.1.2 nofun,
      receiving_expr no false hno hc.2 nofun]
    rfl
  | .assign op target new line, _, called, h, hc, hcalled => by
    obtain ⟨-, -, htarget, hnew⟩ := h
    obtain ⟨hc, hc'⟩ := Bool.and_eq_true_iff.mp hc
    rw [uncalled hcalled rfl, Receiving.expr, receiving_expr target false htarget hc nofun,
      receiving_expr new false hnew hc' nofun]
    rfl
  | .function name line paramsLine params code endLine, _, called, h, hc, hcalled => by
    rw [uncalled hcalled rfl, Receiving.expr, receiving_body code h.2 hc]
    rfl
  | .object line all, _, called, h, hc, hcalled => by
    rw [uncalled hcalled rfl, Receiving.expr, receiving_entries all h.2 hc]
    rfl
  | .array line all, _, called, h, hc, hcalled => by
    rw [uncalled hcalled rfl, Receiving.expr, receiving_elements all h.2 hc]
    rfl

theorem receiving_exprs : ∀ (arguments : Exprs) (_ : Settled.exprs arguments) (_ : Callees.exprs arguments = true),
    Receiving.exprs env arguments = Evaluation.exprs env arguments
  | .nil, _, _ => rfl
  | .cons first rest, h, hc => by
    obtain ⟨hc, hc'⟩ := Bool.and_eq_true_iff.mp hc
    rw [Receiving.exprs, receiving_expr first false h.1 hc nofun, receiving_exprs rest h.2 hc']
    rfl

theorem receiving_entries : ∀ (all : Entries) (_ : Settled.entries all) (_ : Callees.entries all = true),
    Receiving.entries env all = Evaluation.entries env all
  | .nil, _, _ => rfl
  | .cons key keyLine value line rest, h, hc => by
    obtain ⟨hc, hc'⟩ := Bool.and_eq_true_iff.mp hc
    rw [Receiving.entries, receiving_expr value false h.1 hc nofun, receiving_entries rest h.2 hc']
    rfl

theorem receiving_elements : ∀ (all : Elements) (_ : Settled.elements all) (_ : Callees.elements all = true),
    Receiving.elements env all = Evaluation.elements env all
  | .nil, _, _ => rfl
  | .cons startLine value line rest, h, hc => by
    obtain ⟨hc, hc'⟩ := Bool.and_eq_true_iff.mp hc
    rw [Receiving.elements, receiving_expr value false h.1 hc nofun, receiving_elements rest h.2 hc']
    rfl

theorem receiving_stmt : ∀ (s : Stmt) (_ : Settled.stmt s) (_ : Callees.stmt s = true),
    Receiving.stmt env s = Evaluation.stmt env s
  | .empty _, _, _ | .returnNone _, _, _ | .break _, _, _ | .continue _, _, _ => rfl
  | .declare first rest, h, hc => by
    obtain ⟨hc, hc'⟩ := Bool.and_eq_true_iff.mp hc
    rw [Receiving.stmt, receiving_declarator first h.1 hc, receiving_declarators rest h.2 hc']
    rfl
  | .block line code endLine, h, hc => by
    rw [Receiving.stmt, receiving_body code h hc]
    rfl
  | .returnValue value endLine, h, hc => by
    rw [Receiving.stmt, receiving_expr value false h hc nofun]
    rfl
  | .exprs first rest, h, hc => by
    obtain ⟨hc, hc'⟩ := Bool.and_eq_true_iff.mp hc
    rw [Receiving.stmt, receiving_expr first false h.1 hc nofun, receiving_commas rest h.2 hc']
    rfl
  | .ifThen test line yes, h, hc => by
    obtain ⟨hc, hc'⟩ := Bool.and_eq_true_iff.mp hc
    rw [Receiving.stmt, receiving_expr test false h.1 hc nofun, receiving_stmt yes h.2 hc']
    rfl
  | .ifElse test line yes elseLine no, h, hc => by
    simp only [Callees.stmt, Bool.and_eq_true] at hc
    rw [Receiving.stmt, receiving_expr test false h.1 hc.1.1 nofun, receiving_stmt yes h.2.1 hc.1.2,
      receiving_stmt no h.2.2 hc.2]
    rfl
  | .while line test bodyLine code endLine, h, hc => by
    obtain ⟨hc, hc'⟩ := Bool.and_eq_true_iff.mp hc
    rw [Receiving.stmt, receiving_expr test false h.1 hc nofun, receiving_loopBody code h.2 hc']
    rfl
  | .for line start testLine test step bodyLine code endLine, h, hc => by
    simp only [Callees.stmt, Bool.and_eq_true] at hc
    obtain ⟨⟨⟨hstart, htest⟩, hstep⟩, hcode⟩ := hc
    rw [Receiving.stmt, receiving_forStart start h.1 hstart, receiving_clause test _ h.2.1 htest,
      receiving_clause step _ h.2.2.1 hstep, receiving_loopBody code h.2.2.2 hcode]
    rfl
  | .forIn line isDeclared name nameLine object bodyLine code endLine, h, hc => by
    obtain ⟨hc, hc'⟩ := Bool.and_eq_true_iff.mp hc
    rw [Receiving.stmt, receiving_expr object false h.1 hc nofun, receiving_loopBody code h.2 hc']
    rfl

theorem receiving_declarator : ∀ (d : Declarator) (_ : Settled.declarator d) (_ : Callees.declarator d = true),
    Receiving.declarator env d = Evaluation.declarator env d
  | .plain _ _ _, _, _ => rfl
  | .init _ _ _ value _, h, hc => by
    rw [Receiving.declarator, receiving_expr value false h hc nofun]
    rfl

theorem receiving_declarators : ∀ (ds : Declarators) (_ : Settled.declarators ds) (_ : Callees.declarators ds = true),
    Receiving.declarators env ds = Evaluation.declarators env ds
  | .nil, _, _ => rfl
  | .cons _ d rest, h, hc => by
    obtain ⟨hc, hc'⟩ := Bool.and_eq_true_iff.mp hc
    rw [Receiving.declarators, receiving_declarator d h.1 hc, receiving_declarators rest h.2 hc']
    rfl

theorem receiving_commas : ∀ (cs : Commas) (_ : Settled.commas cs) (_ : Callees.commas cs = true),
    Receiving.commas env cs = Evaluation.commas env cs
  | .nil, _, _ => rfl
  | .cons _ next rest, h, hc => by
    obtain ⟨hc, hc'⟩ := Bool.and_eq_true_iff.mp hc
    rw [Receiving.commas, receiving_expr next false h.1 hc nofun, receiving_commas rest h.2 hc']
    rfl

theorem receiving_body : ∀ (code : Body) (_ : Settled.body code) (_ : Callees.body code = true),
    Receiving.body env code = Evaluation.body env code
  | .none _, _, _ => rfl
  | .some first rest, h, hc => by
    obtain ⟨hc, hc'⟩ := Bool.and_eq_true_iff.mp hc
    rw [Receiving.body, receiving_stmt first h.1 hc, receiving_stmts rest h.2 hc']
    rfl

theorem receiving_stmts : ∀ (ss : Stmts) (_ : Settled.stmts ss) (_ : Callees.stmts ss = true),
    Receiving.stmts env ss = Evaluation.stmts env ss
  | .nil, _, _ => rfl
  | .cons _ next rest, h, hc => by
    obtain ⟨hc, hc'⟩ := Bool.and_eq_true_iff.mp hc
    rw [Receiving.stmts, receiving_stmt next h.1 hc, receiving_stmts rest h.2 hc']
    rfl

theorem receiving_loopBody : ∀ (code : LoopBody) (_ : Settled.loopBody code) (_ : Callees.loopBody code = true),
    Receiving.loopBody env code = Evaluation.loopBody env code
  | .braces code, h, hc => receiving_body code h hc
  | .single s, h, hc => receiving_stmt s h hc

theorem receiving_forStart : ∀ (start : ForStart) (_ : Settled.forStart start) (_ : Callees.forStart start = true),
    Receiving.forStart env start = Evaluation.forStart env start
  | .none _, _, _ => rfl
  | .declare first rest, h, hc => by
    obtain ⟨hc, hc'⟩ := Bool.and_eq_true_iff.mp hc
    rw [Receiving.forStart, receiving_declarator first h.1 hc, receiving_declarators rest h.2 hc']
    rfl
  | .expr start, h, hc => receiving_expr start false h hc nofun

theorem receiving_clause : ∀ (c : Clause) (absent : Machine.Work W Unit) (_ : Settled.clause c)
    (_ : Callees.clause c = true), Receiving.clause env c absent = Evaluation.clause env c absent
  | .none _, _, _, _ => rfl
  | .expr inner, _, h, hc => receiving_expr inner false h hc nofun

end

end Trees

/-! ## Programs -/

section Programs

open Machine Source
open Code (Chart Op)

variable {W : Type} {env : Embedding W}

/-- The ground of a unit at an offset. -/
def Code.Chart.Of.ground {s : Chart} {unit : Array UInt8} (h : s.Of unit) (base : Nat) : Ground :=
  ⟨base, unit, s.items, s.place, h.stands, h.first⟩

/-- A run of a unit starts with the instruction for nothing in front of its code. -/
theorem run_unit (henv : env.Steady) {s : Chart} {unit : Array UInt8} (hs : s.Of unit) (h : Settled.body s.script.body)
    (hc : Callees.script s.script = true) {base budget : Nat} {S : Standing} (hown : S.own = [])
    (hsite : S.frame.callSite = none) {m : Machine W} (hm : S.Of (hs.ground base) m) {previous : Op} :
    run env m ⟨unit, base, s.place 0, 0, previous⟩ budget
      = Evaluation.evaluate env (fun i => base + s.place i) s.script m budget := by
  have hsame : Receiving.script env s.script = Evaluation.script env s.script :=
    congrArg (· ++ _) (receiving_body env s.script.body h hc)
  rw [Evaluation.evaluate, ← hsame]
  exact run_placed henv hs.placed hown hsite hm previous budget

/-- Running a unit is evaluating the program that it was compiled from, whose operators are grouped by their levels:
the result is the same, and so is everything that the machine is left with. -/
theorem execute_eq_evaluate (henv : env.Steady) {filename source : String} {width : Nat} {unit : Array UInt8}
    {script : Script} (hcompile : Code.compile filename source width = .ok unit)
    (hparse : parseScript source = .ok script) (ht : Targets.script script = true) (hc : Callees.script script = true) :
    Grouped.script script ∧ ∃ s : Chart, s.script = script ∧ s.Of unit ∧ ∀ {m : Machine W} {base : Nat},
      m.program.Committed → m.program.Has base unit → ∀ receiver args budget,
        execute env m base receiver args (budget + 1)
          = (Evaluation.evaluate env (fun i => base + s.place i) script (m.enterExecution receiver args) budget).andThen
              (endExecution m.depths m.receiver) := by
  obtain ⟨s, rfl, hs⟩ := Code.exists_chart hcompile hparse ht
  refine ⟨grouped_of_parse hparse, s, rfl, hs, fun {m base} hcommitted hhas receiver args budget => ?_⟩
  obtain ⟨header, hheader, hfirst⟩ := hs.first
  have hsize := Nat.lt_trans (hs.headerSize_lt_place (i := 0) (by simp [Chart.items, Code.Shape.script]))
    (hs.stands.place_lt_size (by simp [Chart.items, Code.Shape.script]))
  have hload : Cursor.load m.program base .nop = .ok ⟨unit, base, s.place 0, 0, .nop⟩ := by
    rw [hcommitted.load_ok hhas (Nat.le_refl _) (by omega) hheader, Nat.sub_self, hfirst]
  obtain ⟨S, hown, hsite, hm⟩ := exists_standing (g := hs.ground base) hcommitted hhas receiver args
  rw [execute_succ, hload]
  exact congrArg (Outcome.andThen · _) (run_unit henv hs (settled_of_parse hparse ht) hc hown hsite hm)

/-- A function that leaves a loop by returning. -/
def returning : String := "let f = function() { while (1) return 7 }; f()"

/-- The program calls a variable, assigns to a variable, and ends with seven. -/
def returnsSeven : Bool :=
  match sourceMachine returning with
  | .ok (_, script, m) =>
    Targets.script script && Callees.script script
      && match execute guarding m 0 .undefined [] 60 with
        | .done _ (.ok v) => v == .ofNat 7
        | _ => false
  | .error _ => false

theorem execute_eq_evaluate_returning :
    ∃ (unit : Array UInt8) (script : Script) (s : Chart) (m n : Machine Unit),
      guarding.Steady ∧ Code.compile "t.js" returning 1 = .ok unit ∧ parseScript returning = .ok script
        ∧ Targets.script script = true ∧ Callees.script script = true ∧ m.program.Committed ∧ m.program.Has 0 unit
        ∧ (Evaluation.evaluate guarding (fun i => 0 + s.place i) script (m.enterExecution .undefined []) 59).andThen
            (endExecution m.depths m.receiver) = .done n (.ok (.ofNat 7)) := by
  have hcheck : returnsSeven = true := by decide +kernel
  unfold returnsSeven at hcheck
  split at hcheck
  · rename_i unit script m hmachine
    obtain ⟨hcompile, hparse, hcommitted, hhas⟩ := of_sourceMachine hmachine
    simp only [Bool.and_eq_true] at hcheck
    obtain ⟨⟨ht, hc⟩, hends⟩ := hcheck
    obtain ⟨-, s, -, -, hevaluates⟩ := execute_eq_evaluate guarding_steady hcompile hparse ht hc
    have hsame := hevaluates hcommitted hhas .undefined [] 59
    split at hends
    · rename_i n v hdone
      rw [hdone, eq_of_beq hends] at hsame
      exact ⟨unit, script, s, m, n, guarding_steady, hcompile, hparse, ht, hc, hcommitted, hhas, hsame.symm⟩
    · cases hends
  · cases hcheck

end Programs

end ScriptEngine
