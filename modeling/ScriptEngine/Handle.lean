/-!
Handles of managed cells.

A handle names a slot of an arena together with the generation the slot had when the cell was made.
The generation moves on when the cell is freed, so a handle that outlives its cell is recognised.
-/

namespace ScriptEngine

/-- A slot and its generation. -/
structure CellId where
  index : UInt32
  generation : UInt16
  deriving DecidableEq, Repr, Inhabited

/-- A plain object, an array, an array buffer or a view of one. -/
structure ObjectId where
  cell : CellId
  deriving DecidableEq, Repr, Inhabited

/-- A property of an object. -/
structure PropertyId where
  cell : CellId
  deriving DecidableEq, Repr, Inhabited

/-- A foreign function signature. -/
structure SignatureId where
  cell : CellId
  deriving DecidableEq, Repr, Inhabited

/-- A value pinned by the embedder. -/
structure RootId where
  cell : CellId
  deriving DecidableEq, Repr, Inhabited

/-- A function of the embedder, by its place in the order of registration. -/
structure NativeId where
  index : UInt32
  deriving DecidableEq, Repr, Inhabited

/-- The token a native library holds in place of a script callback. -/
structure CallbackId where
  slot : UInt32
  deriving DecidableEq, Repr, Inhabited

/-- The token as a machine word. -/
def CallbackId.toWord (id : CallbackId) : UInt64 :=
  id.slot.toUInt64

/-- The token that a machine word names, by its low half. -/
def CallbackId.ofWord (word : UInt64) : CallbackId :=
  ⟨word.toUInt32⟩

/-- A handle as inspection shows it. -/
def CellId.inspect (id : CellId) : String :=
  "CellId \x7b index: " ++ toString id.index.toNat ++ ", generation: "
    ++ toString id.generation.toNat ++ " \x7d"

/-- An object handle as inspection shows it. -/
def ObjectId.inspect (id : ObjectId) : String :=
  "ObjectId(" ++ id.cell.inspect ++ ")"

/-- A signature handle as inspection shows it. -/
def SignatureId.inspect (id : SignatureId) : String :=
  "SigId(" ++ id.cell.inspect ++ ")"

/-- The number of a native function as inspection shows it. -/
def NativeId.inspect (id : NativeId) : String :=
  "NativeId(" ++ toString id.index.toNat ++ ")"

end ScriptEngine
