import ScriptEngine.Machine.Entry
/-!
Calls of native code, and calls from it.

A call is checked as a whole before anything is registered or called. While native code runs, no
collection happens between instructions. The token that native code gets in place of the value that
goes with a callback leads back to the registered function.
-/

namespace ScriptEngine.Machine

open Ffi (Arg CType ForeignFunction Registration Signature)

variable {W α : Type}

/-- Finds the function that a prototype describes. -/
def resolveForeign (env : Embedding W) (text : String) : Work W Value := do
  let signature ← ofExcept <|
    (Signature.parse text).mapError fun e =>
      e.toError.within ("bad ffi signature: \"" ++ text ++ "\"")
  let host ← ofExcept env.requireHost
  match host.resolve signature.name with
  | none => throw (.type ("dlsym('" ++ signature.name ++ "') failed"))
  | some target =>
    alloc fun h =>
      h.newSignature ⟨signature, target, signature.callback.bind host.trampoline⟩

/-- Arguments in the categories of their places, from place `i` on. -/
def marshalFrom (h : Heap) (f : ForeignFunction) (i : Nat) :
    List CType → List Value → Except Error (List Arg)
  | type :: types, v :: vs => do
    let arg ← Arg.ofValue h f.trampoline f.signature.callback.isSome i type v
    let rest ← marshalFrom h f (i + 1) types vs
    return arg :: rest
  | _, _ => .ok []

/-- The arguments of a call in the categories of the signature. There have to be as many as it
declares. -/
def marshal (h : Heap) (f : ForeignFunction) (args : List Value) : Except Error (List Arg) :=
  let s := f.signature
  if args.length = s.args.length then marshalFrom h f 0 s.args args
  else
    .error (.type (s.name ++ ": expected " ++ toString s.args.length ++ " args, got "
      ++ toString args.length))

/-- Registers the callback of an accepted call for every place of a value that goes with it, and puts
the tokens into these places. -/
def registerFrom (c : Ffi.Callbacks) (func : Value) (callback : Signature) :
    List CType → List Value → List Arg → Ffi.Callbacks × List Arg
  | type :: types, v :: vs, arg :: args =>
    let (c, arg) :=
      if type = .userdata then
        let (c, id) := c.register ⟨func, v, callback⟩
        (c, Arg.word id.toWord)
      else (c, arg)
    let (c, rest) := registerFrom c func callback types vs args
    (c, arg :: rest)
  | _, _, args => (c, args)

/-- Registers what an accepted call hands to native code. -/
def register (c : Ffi.Callbacks) (s : Signature) (args : List Value) (marshaled : List Arg) :
    Ffi.Callbacks × List Arg :=
  match s.callback with
  | none => (c, marshaled)
  | some callback =>
    let func := (s.callbackIndex?.bind fun i => args[i]?).getD .undefined
    registerFrom c func callback s.args args marshaled

/-- A native call that was accepted. -/
structure AcceptedCall (W : Type) where
  host : Ffi.Host W
  func : ForeignFunction
  args : List Arg

/-- Checks a call and registers its callback. -/
def acceptCall (env : Embedding W) (id : SignatureId) (args : List Value) :
    Work W (AcceptedCall W) := do
  let f ← inspect fun m => m.heap.foreignFunction id
  let marshaled ← inspect fun m =>
    (marshal m.heap f args).mapError (Error.within "failed to call FFIed function")
  let host ← ofExcept env.requireHost
  let marshaled ← modifyGet fun m =>
    let (callbacks, marshaled) := register m.callbacks f.signature args marshaled
    (marshaled, { m with callbacks := callbacks })
  return ⟨host, f, marshaled⟩

/-- Calls a foreign function. -/
def callForeign (env : Embedding W) (m : Machine W) (id : SignatureId) (args : List Value) :
    Action W Value :=
  (Action.ofWork (acceptCall env id args) m).bind fun m accepted =>
    match accepted with
    | .error e => .done m (.error e)
    | .ok call =>
      (call.host.call { m with nativeCalls := m.nativeCalls + 1 } call.func call.args).bind
        fun m result =>
          let m := { m with nativeCalls := m.nativeCalls - 1 }
          match result with
          | .error e => .done m (.error e)
          | .ok arg =>
            Action.ofWork (onHeap fun h => Arg.toValue h call.func.signature.ret arg) m

/-- The values that arguments from native code stand for; `userdata` goes where the callback's
signature says. -/
def callbackValues (userdata : Value) : List CType → List Arg → Work W (List Value)
  | type :: types, arg :: args => do
    let v ←
      if type = .userdata then pure userdata else onHeap fun h => Arg.toValue h type arg
    let rest ← callbackValues userdata types args
    return v :: rest
  | _, _ => pure []

/-- Finds what a token stands for and reads the arguments. -/
def acceptCallback (id : CallbackId) (args : List Arg) : Work W (Registration × List Value) := do
  let r ← inspect fun m =>
    match m.callbacks.get? id with
    | some r => .ok r
    | none => .error (.arguments ("unknown callback #" ++ toString id.toWord.toNat))
  let types := r.signature.args
  if args.length ≠ types.length then
    throw (.arguments ("callback expects " ++ toString types.length ++ " args, got "
      ++ toString args.length))
  let values ← callbackValues r.userdata types args
  return (r, values)

/-- The result of a callback in the category of its signature. -/
def callbackResult (h : Heap) (s : Signature) (v : Value) : Except Error Arg :=
  match s.ret with
  | .void => .ok (.word 0)
  | type => Arg.ofValue h none s.callback.isSome 0 type v

/-- Calls the script function that a token stands for. -/
def invokeCallback (m : Machine W) (id : CallbackId) (args : List Arg) : Action W Arg :=
  (Action.ofWork (acceptCallback id args) m).bind fun m accepted =>
    match accepted with
    | .error e => .done m (.error e)
    | .ok (r, values) =>
      (m.call r.func .undefined values).bind fun m result =>
        match result with
        | .error e => .done m (.error e)
        | .ok v => .done m (callbackResult m.heap r.signature v)

end ScriptEngine.Machine
