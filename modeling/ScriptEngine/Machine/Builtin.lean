import ScriptEngine.Value
/-!
The functions that every machine has.

The first eight are global variables from the start. The others are found on values: `apply` on
everything but text, `push` on arrays, `toString` on numbers, the rest on text.
-/

namespace ScriptEngine

/-- The functions that every machine has, in the order of their numbers. -/
inductive Builtin where
  | print
  | die
  | gc
  | ffi
  | freeCallback
  | arrayBuffer
  | dataView
  | load
  | apply
  | push
  | charCodeAt
  | indexOf
  | slice
  | toText
  deriving DecidableEq, Repr

namespace Builtin

/-- Those that are global variables. -/
def globals : List Builtin :=
  [print, die, gc, ffi, freeCallback, arrayBuffer, dataView, load]

/-- All of them, in order. -/
def all : Array Builtin :=
  #[print, die, gc, ffi, freeCallback, arrayBuffer, dataView, load, apply, push, charCodeAt, indexOf,
    slice, toText]

/-- The name a function is shown by, and its global variable if it has one. -/
def name : Builtin → String
  | print => "print"
  | die => "die"
  | gc => "gc"
  | ffi => "ffi"
  | freeCallback => "ffi_cb_free"
  | arrayBuffer => "ArrayBuffer"
  | dataView => "DataView"
  | load => "load"
  | apply => "apply"
  | push => "push"
  | charCodeAt => "charCodeAt"
  | indexOf => "indexOf"
  | slice => "slice"
  | toText => "toString"

/-- The number of a function. -/
def id (b : Builtin) : NativeId :=
  ⟨UInt32.ofNat b.ctorIdx⟩

/-- The function as a value. -/
def value (b : Builtin) : Value :=
  .native b.id

/-- The function with a number. -/
def ofId? (id : NativeId) : Option Builtin :=
  all[id.index.toNat]?

theorem ofId?_id (b : Builtin) : ofId? b.id = some b := by
  cases b <;> rfl

end Builtin

end ScriptEngine
