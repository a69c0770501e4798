import ScriptEngine.Machine.Property
import ScriptEngine.Number.Arithmetic
/-!
Operators.

Operands are never converted: arithmetic takes two numbers, addition also two strings, and an address
takes a number as a distance. Comparisons see the NaN in place of what is no number.
-/

namespace ScriptEngine.Machine

open Code (Operator)

variable {W : Type}

/-- Operands that an operator does not take. -/
def invalidOperands : Error := .type "invalid operands"

/-- Two addresses: only their distance has a meaning. -/
def addressDistance (op : Operator) (a b : Address) : Except Error Value :=
  match op with
  | .sub => .ok (.number (.ofInt64 (a.word.toInt64 - b.word.toInt64)))
  | _ => .error invalidOperands

/-- An address as a value, or the error that it is none. -/
def addressValue (word : UInt64) : Except Error Value :=
  match Value.ofAddress? word with
  | .ok v => .ok v
  | .error e => .error e.toError

/-- An address moved by a distance. -/
def moveAddress (op : Operator) (a : Address) (n : Number) (addressFirst : Bool) :
    Except Error Value :=
  match op, addressFirst with
  | .add, _ => addressValue (a.word + n.toInt64.toUInt64)
  | .sub, true => addressValue (a.word - n.toInt64.toUInt64)
  | _, _ => .error invalidOperands

/-- The answer of a binary operator. -/
def binary (op : Operator) (a b : Value) : Work W Value :=
  match a, b with
  | .foreign p, .foreign q => ofExcept (addressDistance op p q)
  | .foreign p, .number n => ofExcept (moveAddress op p n true)
  | .number n, .foreign p => ofExcept (moveAddress op p n false)
  | .number x, .number y => pure (.number (Number.binary op x y))
  | .string s, .string t =>
    if op = .add then onHeap fun h => h.concatStrings s t
    else throw (.type "implicit type conversion is prohibited")
  | _, _ => throw (.type "implicit type conversion is prohibited")

/-- The answer of a comparison. -/
def compareNumbers (op : Operator) (a b : Number) : Bool :=
  match op with
  | .lt => a.less b
  | .le => a.lessOrEqual b
  | .gt => b.less a
  | _ => b.lessOrEqual a

/-- The answer of an operator with one operand. -/
def unary (op : Operator) (v : Value) : Work W Value :=
  match op with
  | .not => do
    let holds ← inspect fun m => .ok (m.heap.truthy v)
    pure (.boolean !holds)
  | .neg => pure (.number v.toNumber.neg)
  | .pos => pure v
  | .bitNot => pure (.number v.toNumber.bitNot)
  | .typeOf => onHeap fun h => h.lendString .engine (Text.bytesOf v.typeName)
  | _ => throw (.internal (op.symbol ++ " is not a unary operator"))

/-- Sets what a key names to its value combined with another: the old and the new value. -/
def update (env : Embedding W) (op : Operator) (holder key v : Value) : Work W (Value × Value) := do
  let old ← inspect fun m => m.property env holder key
  let new ← binary op old v
  setProperty env holder key new
  return (old, new)

/-- An assignment that combines. -/
def compoundAssign (env : Embedding W) (op : Operator) : Work W Unit := do
  let v ← pop
  let holder ← pop
  let key ← pop
  if holder.propertyHolder?.isNone then throw (.type "invalid operand")
  let (_, new) ← update env op holder key v
  push new

/-- An increment or a decrement, by the operator that it applies. -/
def step (env : Embedding W) (op : Operator) (symbol : String) (givesNew : Bool) : Work W Unit := do
  let holder ← pop
  let key ← pop
  if holder.propertyHolder?.isNone then throw (.type ("invalid operand for " ++ symbol))
  let (old, new) ← update env op holder key (.ofNat 1)
  push (if givesNew then new else old)

/-- An assignment. -/
def assign (env : Embedding W) : Work W Unit := do
  let v ← pop
  let holder ← pop
  let key ← pop
  setProperty env holder key v
  push v

/-- Carries out an operator on the value stack. -/
def operate (env : Embedding W) (op : Operator) : Work W Unit :=
  match op with
  | .add | .sub | .mul | .div | .rem | .shl | .shr | .ushr | .bitAnd | .bitOr | .bitXor => do
    let b ← pop
    let a ← pop
    push (← binary op a b)
  | .lt | .le | .gt | .ge => do
    let b ← pop
    let a ← pop
    push (.boolean (compareNumbers op a.toNumber b.toNumber))
  | .eq => throw (.unsupported "Use ===, not ==")
  | .ne => throw (.unsupported "Use !==, not !=")
  | .strictEq => do
    let b ← pop
    let a ← pop
    let same ← inspect fun m => .ok (m.heap.strictEquals a b)
    push (.boolean same)
  | .strictNe => do
    let b ← pop
    let a ← pop
    let same ← inspect fun m => .ok (m.heap.strictEquals a b)
    push (.boolean !same)
  | .not | .bitNot | .neg | .pos | .typeOf => do
    let v ← pop
    push (← unary op v)
  | .assign => assign env
  | .addAssign => compoundAssign env .add
  | .subAssign => compoundAssign env .sub
  | .mulAssign => compoundAssign env .mul
  | .divAssign => compoundAssign env .div
  | .remAssign => compoundAssign env .rem
  | .shlAssign => compoundAssign env .shl
  | .shrAssign => compoundAssign env .shr
  | .ushrAssign => compoundAssign env .ushr
  | .bitAndAssign => compoundAssign env .bitAnd
  | .bitOrAssign => compoundAssign env .bitOr
  | .bitXorAssign => compoundAssign env .bitXor
  | .preInc => step env .add "++" true
  | .preDec => step env .sub "--" true
  | .postInc => step env .add "++" false
  | .postDec => step env .sub "--" false

end ScriptEngine.Machine
