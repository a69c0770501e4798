/-!
Operation codes of instructions, and the operators that an operator instruction carries.

Both sets are numbered by their order here.
-/

namespace ScriptEngine.Code

/-- Operation codes, in the order of their bytes. -/
inductive Op where
  | nop
  | drop
  | dup
  | dup2
  | swap
  | jmp
  | jmpTrue
  | jmpNeutralTrue
  | jmpFalse
  | jmpNeutralFalse
  | findScope
  | pushScope
  | pushStr
  | pushTrue
  | pushFalse
  | pushInt
  | pushDbl
  | pushNull
  | pushUndef
  | pushObj
  | pushArray
  | pushFunc
  | pushThis
  | get
  | create
  | expr
  | append
  | setArg
  | newScope
  | delScope
  | call
  | return
  | loop
  | break
  | continue
  | setRetVal
  | exit
  | header
  | args
  | forInNext
  deriving DecidableEq, Repr, Inhabited

namespace Op

/-- Every operation code, in order. -/
def all : Array Op :=
  #[nop, drop, dup, dup2, swap, jmp, jmpTrue, jmpNeutralTrue, jmpFalse, jmpNeutralFalse, findScope,
    pushScope, pushStr, pushTrue, pushFalse, pushInt, pushDbl, pushNull, pushUndef, pushObj,
    pushArray, pushFunc, pushThis, get, create, expr, append, setArg, newScope, delScope, call,
    .return, loop, .break, .continue, setRetVal, exit, header, args, forInNext]

/-- The byte of an operation code. -/
def toByte (op : Op) : UInt8 :=
  UInt8.ofNat op.ctorIdx

/-- The operation code with a byte. -/
def ofByte? (b : UInt8) : Option Op :=
  all[b.toNat]?

theorem ofByte?_toByte (op : Op) : ofByte? op.toByte = some op := by
  cases op <;> rfl

/-- The name in a listing. -/
def name : Op → String
  | nop => "NOP"
  | drop => "DROP"
  | dup => "DUP"
  | dup2 => "2DUP"
  | swap => "SWAP"
  | jmp => "JMP"
  | jmpTrue => "JMP_TRUE"
  | jmpNeutralTrue => "JMP_NEUTRAL_TRUE"
  | jmpFalse => "JMP_FALSE"
  | jmpNeutralFalse => "JMP_NEUTRAL_FALSE"
  | findScope => "FIND_SCOPE"
  | pushScope => "PUSH_SCOPE"
  | pushStr => "PUSH_STR"
  | pushTrue => "PUSH_TRUE"
  | pushFalse => "PUSH_FALSE"
  | pushInt => "PUSH_INT"
  | pushDbl => "PUSH_DBL"
  | pushNull => "PUSH_NULL"
  | pushUndef => "PUSH_UNDEF"
  | pushObj => "PUSH_OBJ"
  | pushArray => "PUSH_ARRAY"
  | pushFunc => "PUSH_FUNC"
  | pushThis => "PUSH_THIS"
  | get => "GET"
  | create => "CREATE"
  | expr => "EXPR"
  | append => "APPEND"
  | setArg => "SET_ARG"
  | newScope => "NEW_SCOPE"
  | delScope => "DEL_SCOPE"
  | call => "CALL"
  | .return => "RETURN"
  | loop => "LOOP"
  | .break => "BREAK"
  | .continue => "CONTINUE"
  | setRetVal => "SETRETVAL"
  | exit => "EXIT"
  | header => "BCODE_HDR"
  | args => "ARGS"
  | forInNext => "FOR_IN_NEXT"

/-- Jumps with a single distance. -/
def isJump : Op → Bool
  | jmp | jmpTrue | jmpFalse | jmpNeutralTrue | jmpNeutralFalse => true
  | _ => false

end Op

/-- Operators, in the order of their bytes. -/
inductive Operator where
  | add
  | sub
  | mul
  | div
  | rem
  | shl
  | shr
  | ushr
  | bitAnd
  | bitOr
  | bitXor
  | lt
  | le
  | gt
  | ge
  | eq
  | ne
  | strictEq
  | strictNe
  | not
  | bitNot
  | neg
  | pos
  | typeOf
  | assign
  | addAssign
  | subAssign
  | mulAssign
  | divAssign
  | remAssign
  | shlAssign
  | shrAssign
  | ushrAssign
  | bitAndAssign
  | bitOrAssign
  | bitXorAssign
  | preInc
  | preDec
  | postInc
  | postDec
  deriving DecidableEq, Repr, Inhabited

namespace Operator

/-- Every operator, in order. -/
def all : Array Operator :=
  #[add, sub, mul, div, rem, shl, shr, ushr, bitAnd, bitOr, bitXor, lt, le, gt, ge, eq, ne, strictEq,
    strictNe, not, bitNot, neg, pos, typeOf, assign, addAssign, subAssign, mulAssign, divAssign,
    remAssign, shlAssign, shrAssign, ushrAssign, bitAndAssign, bitOrAssign, bitXorAssign, preInc,
    preDec, postInc, postDec]

/-- The byte of an operator. -/
def toByte (op : Operator) : UInt8 :=
  UInt8.ofNat op.ctorIdx

/-- The operator with a byte. -/
def ofByte? (b : UInt8) : Option Operator :=
  all[b.toNat]?

theorem ofByte?_toByte (op : Operator) : ofByte? op.toByte = some op := by
  cases op <;> rfl

/-- The operator as a listing shows it. -/
def symbol : Operator → String
  | add => "+"
  | sub => "-"
  | mul => "*"
  | div => "/"
  | rem => "%"
  | shl => "<<"
  | shr => ">>"
  | ushr => ">>>"
  | bitAnd => "&"
  | bitOr => "|"
  | bitXor => "^"
  | lt => "<"
  | le => "<="
  | gt => ">"
  | ge => ">="
  | eq => "=="
  | ne => "!="
  | strictEq => "==="
  | strictNe => "!=="
  | not => "!"
  | bitNot => "~"
  | neg => "unary -"
  | pos => "unary +"
  | typeOf => "typeof"
  | assign => "="
  | addAssign => "+="
  | subAssign => "-="
  | mulAssign => "*="
  | divAssign => "/="
  | remAssign => "%="
  | shlAssign => "<<="
  | shrAssign => ">>="
  | ushrAssign => ">>>="
  | bitAndAssign => "&="
  | bitOrAssign => "|="
  | bitXorAssign => "^="
  | preInc => "++"
  | preDec => "--"
  | postInc => "postfix ++"
  | postDec => "postfix --"

/-- The binary operator that a compound assignment applies. -/
def compoundBase? : Operator → Option Operator
  | addAssign => some add
  | subAssign => some sub
  | mulAssign => some mul
  | divAssign => some div
  | remAssign => some rem
  | shlAssign => some shl
  | shrAssign => some shr
  | ushrAssign => some ushr
  | bitAndAssign => some bitAnd
  | bitOrAssign => some bitOr
  | bitXorAssign => some bitXor
  | _ => none

end Operator

end ScriptEngine.Code
