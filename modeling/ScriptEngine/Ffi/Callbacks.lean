import ScriptEngine.Ffi.Signature
import ScriptEngine.Value
/-!
Script functions that native code may call.

A registration holds a function, the value that goes with it, and the signature that native code calls
it by. Its token is the number of its slot; registering a function with the same value again gives the
token it has, and a freed slot is used again, the first one first.
-/

namespace ScriptEngine.Ffi

/-- A function that native code may call. -/
structure Registration where
  func : Value
  userdata : Value
  signature : Signature

/-- All registrations, by slot. -/
structure Callbacks where
  slots : Array (Option Registration)

namespace Callbacks

def empty : Callbacks := ⟨#[]⟩

/-- Whether a slot holds a function with a value. -/
def holds (func userdata : Value) (slot : Option Registration) : Bool :=
  slot.any fun r => r.func == func && r.userdata == userdata

/-- The slot of a function with a value. -/
def slotOf? (c : Callbacks) (func userdata : Value) : Option Nat :=
  c.slots.findIdx? (holds func userdata)

/-- The token of a slot. -/
def token (slot : Nat) : CallbackId := ⟨UInt32.ofNat slot⟩

/-- Registers a function with a value, or finds the token that the two have. -/
def register (c : Callbacks) (r : Registration) : Callbacks × CallbackId :=
  match c.slotOf? r.func r.userdata with
  | some i => (c, token i)
  | none =>
    match c.slots.findIdx? Option.isNone with
    | some i => (⟨c.slots.setIfInBounds i (some r)⟩, token i)
    | none => (⟨c.slots.push (some r)⟩, token c.slots.size)

/-- Frees the registration of a function with a value. The flag says whether there was one. -/
def remove (c : Callbacks) (func userdata : Value) : Callbacks × Bool :=
  match c.slotOf? func userdata with
  | some i => (⟨c.slots.setIfInBounds i none⟩, true)
  | none => (c, false)

/-- The registration of a token. -/
def get? (c : Callbacks) (id : CallbackId) : Option Registration :=
  (c.slots[id.slot.toNat]?).join

/-- The registrations, in order of their slots. -/
def toList (c : Callbacks) : List Registration :=
  c.slots.toList.filterMap id

/-- The values that registrations keep alive. -/
def values (c : Callbacks) : List Value :=
  c.toList.flatMap fun r => [r.func, r.userdata]

/-- Changes every value that a registration keeps alive. -/
def map (c : Callbacks) (f : Value → Value) : Callbacks :=
  ⟨c.slots.map fun slot => slot.map fun r => ⟨f r.func, f r.userdata, r.signature⟩⟩

end Callbacks

end ScriptEngine.Ffi
