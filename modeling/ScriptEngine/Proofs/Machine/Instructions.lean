import ScriptEngine.Proofs.Machine.Calling
/-!
What instructions mean.

An instruction is evaluated as the operation that it carries out, and so are the instructions that constructs share. A
look-up depends on the instruction before it, and so does the start of arguments, which asks only whether that was a
look-up.
-/

namespace ScriptEngine

open Code (Item Op Program Stands Instr Decoded)

/-! ## Rounds -/

namespace Code.Shape

/-- The items of a round of a loop. -/
def round (test body : List Item) : List Item :=
  test ++ (guarded .onFalse body ++ [.plain .break (@rfl Bool true)])

theorem loop_eq (test body : List Item) : loop test body = .loop (round test body).length 0 :: round test body := by
  simp only [loop, round, guarded, List.length_append, List.length_cons, List.length_nil, List.cons_append,
    List.cons.injEq, Item.loop.injEq, and_true]
  omega

theorem countingLoop_eq (start step test body : List Item) :
    countingLoop start step test body = counting start step (round test body) := by
  simp only [countingLoop, counting, round, guarded, List.length_append, List.length_cons, List.length_nil,
    List.cons_append, List.cons.injEq, Item.loop.injEq, and_true]
  omega

end Code.Shape

/-! ## Instructions -/

namespace Means

open Machine Evaluation

variable {W : Type} {env : Embedding W} {before middle after : Op → Prop} {a b : Piece W} {xs ys : List Item}

/-- Operations one after the other, an instruction for each. -/
theorem line {work : Work W Unit} {works : List (Work W Unit)} {x : Item}
    (h : Means env before (.single work) [x] middle) (h' : Means env middle (.line works) xs after) :
    Means env before (.line (work :: works)) (x :: xs) after :=
  h.seq h'

/-- One operation. -/
theorem one {work : Work W Unit} {x : Item} (h : Means env before (.single work) [x] after) :
    Means env before (.line [work]) [x] after :=
  h.line nothing

variable (env)

theorem drop : Means env anyOp (.single Evaluation.drop) [.plain .drop] (· = .drop) :=
  single rfl rfl fun _ => by
    unfold Evaluation.drop
    rw [bind_assoc]
    rfl

theorem duplicate : Means env anyOp (.single Evaluation.duplicate) [.plain .dup] (· = .dup) :=
  single rfl rfl fun _ => (bind_assoc _ _ _).symm

theorem swap : Means env anyOp (.single swapTop) [.plain .swap] (· = .swap) :=
  single rfl rfl fun _ => rfl

theorem pushStr (text : List UInt8) :
    Means env anyOp (.single (pushText text)) [.plain (.pushStr text)] (· = .pushStr) :=
  single rfl rfl fun _ => (bind_assoc _ _ _).symm

theorem findScope : Means env anyOp (.single findVariable) [.plain .findScope] (· = .findScope) := by
  refine single rfl rfl fun _ => ?_
  unfold findVariable
  simp only [bind_assoc]
  rfl

theorem get (previous : Op) : Means env (· = previous) (.single (lookUp env previous)) [.plain .get] (· = .get) :=
  single rfl rfl fun hprevious => by
    rw [← hprevious]
    rfl

theorem pushScope : Means env anyOp (.single (do push (← topScope))) [.plain .pushScope] (· = .pushScope) :=
  single rfl rfl fun _ => (bind_assoc _ _ _).symm

theorem create : Means env anyOp (.single (do let holder ← pop; let key ← pop; declare holder key)) [.plain .create]
    (· = .create) := by
  refine single rfl rfl fun _ => ?_
  simp only [bind_assoc]
  rfl

theorem operator (op : Code.Operator) : Means env anyOp (.single (operate env op)) [.plain (.expr op)] (· = .expr) :=
  single rfl rfl fun _ => rfl

theorem append : Means env anyOp (.single Machine.append) [.plain .append] (· = .append) :=
  single rfl rfl fun _ => rfl

theorem setArg (index : Nat) (name : List UInt8) :
    Means env anyOp (.single (setArgument env index name)) [.plain (.setArg index name)] (· = .setArg) :=
  single rfl rfl fun _ => rfl

theorem newScope : Means env anyOp (.single openScope) [.plain .newScope] (· = .newScope) :=
  single rfl rfl fun _ => rfl

theorem delScope : Means env anyOp (.single closeScope) [.plain .delScope] (· = .delScope) :=
  single rfl rfl fun _ => rfl

/-- A call is noted by whether a look-up was the last instruction. -/
theorem args (last : Op) :
    Means env (fun op => op = .get ↔ last = .get) (.single (beginArgs last)) [.plain .args] (· = .args) :=
  single rfl rfl fun {c _ _} hprevious => by
    have hsame : (beginArgs c.previous : Work W Unit) = beginArgs last := by
      by_cases hlast : last = .get
      · rw [hprevious.mpr hlast, hlast]
      · funext m
        simp only [beginArgs, if_neg hlast, if_neg (mt hprevious.mp hlast)]
    rw [← hsame]
    rfl

theorem setRetVal : Means env anyOp (.single takeResult) [.plain .setRetVal] (· = .setRetVal) :=
  single rfl rfl fun _ => (bind_assoc _ _ _).symm

theorem pushUndef : Means env anyOp (.single (push .undefined)) [.plain .pushUndef] (· = .pushUndef) :=
  single rfl rfl fun _ => rfl

theorem pushTrue : Means env anyOp (.single (push (.boolean true))) [.plain .pushTrue] (· = .pushTrue) :=
  single rfl rfl fun _ => rfl

theorem pushObj : Means env anyOp (.single (do push (← alloc Heap.newObject))) [.plain .pushObj] (· = .pushObj) :=
  single rfl rfl fun _ => (bind_assoc _ _ _).symm

theorem pushArray :
    Means env anyOp (.single (do push (← alloc fun h => h.newArray []))) [.plain .pushArray] (· = .pushArray) :=
  single rfl rfl fun _ => (bind_assoc _ _ _).symm

theorem forInNext : Means env anyOp (.single (walk env)) [.plain .forInNext] (· = .forInNext) :=
  single rfl rfl fun _ => rfl

/-- A number is pushed as an integer or by its bits. -/
theorem number (n : Number) : Means env anyOp (.single (push (numberValue n)))
    [.plain (Code.Literal.pushNumber n) (Code.Literal.isPlain_pushNumber n)] unread := by
  have hpushes (ins : Instr) (v : Value) (hplain : ins.isPlain = true) (hop : decide (ins.op = .get) = false)
      (hins : Code.Literal.pushNumber n = ins) (hv : numberValue n = v)
      (h : Means env anyOp (.single (push v)) [.plain ins hplain] (· = ins.op)) :
      Means env anyOp (.single (push (numberValue n)))
        [.plain (Code.Literal.pushNumber n) (Code.Literal.isPlain_pushNumber n)] unread := by
    subst hins hv
    exact h.toUnread hop
  have hbits : Means env anyOp (.single (push (.number n))) [.plain (.pushDbl n.bits)] (· = .pushDbl) := by
    refine single rfl rfl fun _ => ?_
    conv_rhs => rw [← Number.ofBits_bits n]
    rfl
  cases hnat : n.nat? with
  | none =>
    exact hpushes (.pushDbl n.bits) _ rfl rfl (by rw [Code.Literal.pushNumber, hnat]) (by rw [numberValue, hnat])
      hbits
  | some k =>
    by_cases hk : k < Code.Literal.integerLimit
    · exact hpushes (.pushInt k) (.ofNat k) (decide_eq_true (Nat.lt_trans hk (by decide))) rfl
        (by simp only [Code.Literal.pushNumber, hnat, if_pos hk]) (by simp only [numberValue, hnat, if_pos hk])
        (single rfl rfl fun _ => rfl)
    · exact hpushes (.pushDbl n.bits) _ rfl rfl (by simp only [Code.Literal.pushNumber, hnat, if_neg hk])
        (by simp only [numberValue, hnat, if_neg hk]) hbits

theorem literal (l : Source.Literal) : Means env anyOp (.single (pushLiteral l))
    [.plain (Code.Literal.push l) (Code.Literal.isPlain_push l)] unread := by
  cases l with
  | number n => exact number env n
  | this => exact toUnread (single rfl rfl fun _ => (bind_assoc _ _ _).symm) rfl
  | string bytes => exact (pushStr env bytes).toUnread rfl
  | _ => exact toUnread (single rfl rfl fun _ => rfl) rfl

/-! ## Parts of constructs -/

theorem declared (name : Source.Name) : Means env anyOp (Evaluation.declared name) (Code.Shape.declare name) anyOp :=
  (pushStr env name).toAny.line ((pushScope env).toAny.line (one (create env).toAny))

theorem reference (name : Source.Name) :
    Means env anyOp (Evaluation.reference name) (Code.Shape.reference name) (· = .findScope) :=
  (pushStr env name).toAny.line (one (findScope env))

/-- What is read is on top. -/
theorem fetch (previous : Op) (read : Option Nat) :
    Means env (· = previous) (.line (Evaluation.fetch env previous read)) (Code.Shape.fetch read)
      (· = Receiving.lastOf previous read) := by
  cases read with
  | none => exact nothing
  | some line => exact one (get env previous)

theorem parameters (params : List (Source.Name × Nat)) (index : Nat) :
    Means env anyOp (.line (Evaluation.parameters env params index)) (Code.Shape.setArgs params index) anyOp := by
  induction params generalizing index with
  | nil => exact nothing
  | cons param params ih => exact (setArg env index param.1).toAny.line (ih (index + 1))

variable {env}

theorem named {name : Option Source.Name} (h : Means env anyOp a xs unread) :
    Means env anyOp (Evaluation.named env name a) (Code.Shape.named name xs) unread := by
  cases name with
  | none => exact h
  | some name =>
    have htarget := (declared env name).seq (reference env name).toAny
    exact (htarget.seq h.toAny).seq (one ((operator env .assign).toUnread rfl))

/-- The value of a round is dropped, and the test comes again. -/
theorem round (htest : Means env anyOp a xs anyOp) (hbody : Means env anyOp b ys anyOp) :
    Means env anyOp (Evaluation.round a b) (Code.Shape.round xs (ys ++ [.plain .drop, .plain .continue])) noOp := by
  have hinside := hbody.seq ((one (drop env).toAny).seq «continue»)
  exact htest.seq ((hinside.toAny.guarded (tests_onFalse env)).seq «break»)

end Means

end ScriptEngine
