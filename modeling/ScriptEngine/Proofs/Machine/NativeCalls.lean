import Mathlib.Data.List.Forall2
import ScriptEngine.Proofs.Ffi.Signatures
import ScriptEngine.Proofs.Machine.Courses
/-!
Calls of native code.

A call is all or nothing (`callForeign_all_or_nothing`). Either its arguments are not those that the signature
declares, and then it fails with the machine as it was; or native code is called once, each argument in the
category of its place, and a token in place of the value that goes with a callback leads to the function and
the value of this call. The number of native calls under way is the same behind it, whatever native code and
the scripts that it calls do.
-/

namespace ScriptEngine

namespace Ffi

/-- The values that a category takes. -/
def CType.Fits (trampoline : Option UInt64) (type : CType) (v : Value) : Prop :=
  match type with
  | .int => (∃ n, v = .number n ∧ n.integer?.isSome) ∨ ∃ b, v = .boolean b
  | .bool => (∃ n, v = .number n) ∨ ∃ b, v = .boolean b
  | .double | .float => ∃ n, v = .number n
  | .charPtr => (∃ s, v = .string s) ∨ v = .null
  | .voidPtr => (∃ s, v = .string s) ∨ (∃ address, v = .foreign address) ∨ v = .null
  | .textStructPtr => ∃ s, v = .string s
  | .callback => (∃ start, v = .function start) ∧ trampoline.isSome
  | .userdata => True
  | .void | .textStruct => False

/-- The argument that stands for a value in a category. `names` says which words are tokens of a value that
goes with a callback. -/
inductive Arg.Carries (h : Heap) (trampoline : Option UInt64) (names : UInt64 → Value → Prop) :
    CType → Value → Arg → Prop where
  | int {n : Number} (hn : n.integer?.isSome) :
    Carries h trampoline names .int (.number n) (.word (Int64.ofInt n.clampInt64).toUInt64)
  | intOfTruth {b : Bool} : Carries h trampoline names .int (.boolean b) (.word (if b then 1 else 0))
  | bool {n : Number} : Carries h trampoline names .bool (.number n) (.bool (!n.equals (.ofNat 0)))
  | truth {b : Bool} : Carries h trampoline names .bool (.boolean b) (.bool b)
  | double {n : Number} : Carries h trampoline names .double (.number n) (.double n)
  | float {n : Number} : Carries h trampoline names .float (.number n) (.single (UInt32.ofNat n.toSingle))
  | chars {s : StringRef} : Carries h trampoline names .charPtr (.string s) (.text (h.strings.bytes s))
  | noChars : Carries h trampoline names .charPtr .null (.pointer 0)
  | text {s : StringRef} : Carries h trampoline names .voidPtr (.string s) (.text (h.strings.bytes s))
  | pointer {address : Address} : Carries h trampoline names .voidPtr (.foreign address) (.pointer address.word)
  | nowhere : Carries h trampoline names .voidPtr .null (.pointer 0)
  | textStruct {s : StringRef} : Carries h trampoline names .textStructPtr (.string s) (.text (h.strings.bytes s))
  | callback {start : Payload} {address : UInt64} (haddress : trampoline = some address) :
    Carries h trampoline names .callback (.function start) (.pointer address)
  | userdata {v : Value} {w : UInt64} (hw : names w v) : Carries h trampoline names .userdata v (.word w)

namespace Arg

variable {h : Heap} {trampoline : Option UInt64} {names names' : UInt64 → Value → Prop} {type : CType} {v : Value}
  {arg : Arg}

theorem Carries.mono (hnames : ∀ w, type = .userdata → names w v → names' w v)
    (hc : Carries h trampoline names type v arg) : Carries h trampoline names' type v arg := by
  cases hc with
  | userdata hw => exact .userdata (hnames _ rfl hw)
  | int hn => exact .int hn
  | callback haddress => exact .callback haddress
  | _ => constructor

/-- A value that fits is passed; the token of a value that goes with a callback is still to be filled in. -/
theorem ofValue_of_fits {withCallback : Bool} (i : Nat) (hfits : type.Fits trampoline v)
    (hcallback : type = .userdata → withCallback = true) :
    ∃ arg, ofValue h trampoline withCallback i type v = .ok arg
      ∧ Carries h trampoline (fun w _ => w = 0) type v arg := by
  cases type with
  | int =>
    rcases hfits with ⟨n, rfl, hn⟩ | ⟨b, rfl⟩
    · exact ⟨_, by simp [ofValue, ofInteger, hn], .int hn⟩
    · exact ⟨_, rfl, .intOfTruth⟩
  | bool =>
    rcases hfits with ⟨n, rfl⟩ | ⟨b, rfl⟩
    · exact ⟨_, rfl, .bool⟩
    · exact ⟨_, rfl, .truth⟩
  | double =>
    obtain ⟨n, rfl⟩ := hfits
    exact ⟨_, rfl, .double⟩
  | float =>
    obtain ⟨n, rfl⟩ := hfits
    exact ⟨_, rfl, .float⟩
  | charPtr =>
    rcases hfits with ⟨s, rfl⟩ | rfl
    · exact ⟨_, rfl, .chars⟩
    · exact ⟨_, rfl, .noChars⟩
  | voidPtr =>
    rcases hfits with ⟨s, rfl⟩ | ⟨address, rfl⟩ | rfl
    · exact ⟨_, rfl, .text⟩
    · exact ⟨_, rfl, .pointer⟩
    · exact ⟨_, rfl, .nowhere⟩
  | textStructPtr =>
    obtain ⟨s, rfl⟩ := hfits
    exact ⟨_, rfl, .textStruct⟩
  | callback =>
    obtain ⟨⟨start, rfl⟩, hsome⟩ := hfits
    obtain ⟨address, rfl⟩ := Option.isSome_iff_exists.mp hsome
    exact ⟨_, rfl, .callback rfl⟩
  | userdata => exact ⟨_, by simp [ofValue, hcallback rfl], .userdata rfl⟩
  | void | textStruct => exact hfits.elim

/-- A value that does not fit is refused. -/
theorem ofValue_of_not_fits (h : Heap) (withCallback : Bool) (i : Nat) (hfits : ¬ type.Fits trampoline v) :
    ∃ e, ofValue h trampoline withCallback i type v = .error e := by
  cases hvalue : ofValue h trampoline withCallback i type v with
  | error e => exact ⟨e, rfl⟩
  | ok arg =>
    refine absurd ?_ hfits
    cases type with
    | int =>
      cases v with
      | number n =>
        simp only [ofValue, ofInteger] at hvalue
        split at hvalue
        · rename_i hn
          exact .inl ⟨n, rfl, hn⟩
        · cases hvalue
      | boolean b => exact .inr ⟨b, rfl⟩
      | _ => cases hvalue
    | bool =>
      cases v with
      | number n => exact .inl ⟨n, rfl⟩
      | boolean b => exact .inr ⟨b, rfl⟩
      | _ => cases hvalue
    | double | float =>
      cases v with
      | number n => exact ⟨n, rfl⟩
      | _ => cases hvalue
    | charPtr =>
      cases v with
      | string s => exact .inl ⟨s, rfl⟩
      | null => exact .inr rfl
      | _ => cases hvalue
    | voidPtr =>
      cases v with
      | string s => exact .inl ⟨s, rfl⟩
      | foreign address => exact .inr (.inl ⟨address, rfl⟩)
      | null => exact .inr (.inr rfl)
      | _ => cases hvalue
    | textStructPtr =>
      cases v with
      | string s => exact ⟨s, rfl⟩
      | _ => cases hvalue
    | callback =>
      cases v with
      | function start =>
        cases trampoline with
        | some address => exact ⟨⟨start, rfl⟩, rfl⟩
        | none => cases hvalue
      | _ => cases hvalue
    | userdata => trivial
    | void | textStruct => cases hvalue

end Arg

end Ffi

namespace Machine

open Ffi (Arg CType Callbacks ForeignFunction Registration Signature)

variable {W : Type} {h : Heap} {f : ForeignFunction} {types : List CType} {args : List Value}

/-! ## Checking arguments -/

/-- There are as many arguments as a function declares, and each fits its place. -/
def Acceptable (f : ForeignFunction) (args : List Value) : Prop :=
  args.length = f.signature.args.length
    ∧ ∀ place ∈ f.signature.args.zip args, place.1.Fits f.trampoline place.2

theorem marshalFrom_of_fits (i : Nat) (hfits : ∀ place ∈ types.zip args, place.1.Fits f.trampoline place.2)
    (hcallback : .userdata ∈ types → f.signature.callback.isSome) :
    ∃ marshaled, marshalFrom h f i types args = .ok marshaled
      ∧ List.Forall₂ (fun place arg => Arg.Carries h f.trampoline (fun w _ => w = 0) place.1 place.2 arg)
          (types.zip args) marshaled := by
  induction types generalizing i args with
  | nil => exact ⟨[], rfl, .nil⟩
  | cons type types ih =>
    cases args with
    | nil => exact ⟨[], rfl, .nil⟩
    | cons v args =>
      obtain ⟨hfirst, hrest⟩ := List.forall_mem_cons.mp hfits
      obtain ⟨arg, harg, hcarries⟩ := Arg.ofValue_of_fits (h := h) i hfirst
        fun htype => hcallback (htype ▸ List.mem_cons_self)
      obtain ⟨marshaled, hmarshaled, hall⟩ := ih (i + 1) hrest fun hmem => hcallback (List.mem_cons_of_mem _ hmem)
      refine ⟨arg :: marshaled, ?_, .cons hcarries hall⟩
      rw [marshalFrom, show Arg.ofValue h f.trampoline f.signature.callback.isSome i type v = _ from harg, hmarshaled]
      rfl

theorem marshalFrom_of_not_fits (h : Heap) (i : Nat)
    (hfits : ∃ place ∈ types.zip args, ¬ place.1.Fits f.trampoline place.2) :
    ∃ e, marshalFrom h f i types args = .error e := by
  induction types generalizing i args with
  | nil => simp at hfits
  | cons type types ih =>
    cases args with
    | nil => simp at hfits
    | cons v args =>
      rw [List.zip_cons_cons, List.exists_mem_cons_iff] at hfits
      cases harg : Arg.ofValue h f.trampoline f.signature.callback.isSome i type v with
      | error e =>
        refine ⟨e, ?_⟩
        rw [marshalFrom, harg]
        rfl
      | ok arg =>
        rcases hfits with hfirst | hrest
        · obtain ⟨e, he⟩ := Arg.ofValue_of_not_fits h f.signature.callback.isSome i hfirst
          rw [he] at harg
          cases harg
        · obtain ⟨e, he⟩ := ih (i + 1) hrest
          refine ⟨e, ?_⟩
          rw [marshalFrom, harg, he]
          rfl

/-! ## Filling in tokens -/

/-- A word is the token of a registration of a function with a value. -/
def Names (c : Callbacks) (func : Value) (w : UInt64) (v : Value) : Prop :=
  ∃ slot r, c.At slot r ∧ r.Pairs func v ∧ w = (Callbacks.token slot).toWord

/-- As long as slots have numbers of 32 bits, native code gets back to the registration with its token. -/
theorem Names.get? {c : Callbacks} {func v : Value} {w : UInt64} (h : Names c func w v)
    (hroom : c.slots.size ≤ UInt32.size) : ∃ r, c.get? (.ofWord w) = some r ∧ r.Pairs func v := by
  obtain ⟨slot, r, hr, hpairs, rfl⟩ := h
  refine ⟨r, ?_, hpairs⟩
  rw [CallbackId.ofWord_toWord]
  exact (Callbacks.get?_token (Nat.lt_of_lt_of_le hr.lt_size hroom)).mpr hr

/-- What registering leaves of the arguments and of the registrations before it. -/
theorem registerFrom_spec (c : Callbacks) (func : Value) (callback : Signature) {trampoline : Option UInt64}
    {marshaled : List Arg}
    (hall : List.Forall₂ (fun place arg => Arg.Carries h trampoline (fun w _ => w = 0) place.1 place.2 arg)
      (types.zip args) marshaled) :
    List.Forall₂ (fun place arg => Arg.Carries h trampoline
        (Names (registerFrom c func callback types args marshaled).1 func) place.1 place.2 arg)
        (types.zip args) (registerFrom c func callback types args marshaled).2
      ∧ ∀ slot r, c.At slot r → (registerFrom c func callback types args marshaled).1.At slot r := by
  induction types generalizing c args marshaled with
  | nil =>
    cases hall
    exact ⟨.nil, fun _ _ hr => hr⟩
  | cons type types ih =>
    cases args with
    | nil =>
      cases hall
      exact ⟨.nil, fun _ _ hr => hr⟩
    | cons v args =>
      cases hall with
      | @cons _ arg _ marshaled hfirst hrest =>
      unfold registerFrom
      by_cases htype : type = .userdata
      · simp only [htype, if_true]
        obtain ⟨hcarry, hkeep⟩ := ih (c.register ⟨func, v, callback⟩).1 hrest
        refine ⟨.cons ?_ hcarry, fun slot r hr => hkeep slot r (hr.register _)⟩
        obtain ⟨slot, r, htoken, hr, hpairs, -⟩ := Callbacks.register_gives c ⟨func, v, callback⟩
        exact .userdata ⟨slot, r, hkeep slot r hr, hpairs, by rw [htoken]⟩
      · simp only [htype, if_false]
        obtain ⟨hcarry, hkeep⟩ := ih c hrest
        exact ⟨.cons (hfirst.mono fun _ heq => absurd heq htype) hcarry, hkeep⟩

/-- The function that a call hands over, if its signature has one. -/
def handed (s : Signature) (args : List Value) : Value :=
  (s.callbackIndex?.bind fun i => args[i]?).getD .undefined

/-- A signature with a value that goes with a callback hands over the argument at the place of the callback. -/
theorem handed_eq {s : Signature} (hs : s.Sound) (huserdata : .userdata ∈ s.args) (hcount : args.length = s.args.length) :
    ∃ i, s.callbackIndex? = some i ∧ args[i]? = some (handed s args) := by
  have hmem := hs.paired huserdata
  cases hindex : s.callbackIndex? with
  | none =>
    have hnone := List.findIdx?_eq_none_iff.mp hindex .callback hmem
    simp at hnone
  | some i =>
    obtain ⟨hlt, -, -⟩ := List.findIdx?_eq_some_iff_getElem.mp hindex
    have hi : i < args.length := hcount ▸ hlt
    exact ⟨i, rfl, by simp [handed, hindex, hi]⟩

theorem register_eq (c : Callbacks) {s : Signature} {callback : Signature} (hcallback : s.callback = some callback)
    (marshaled : List Arg) :
    register c s args marshaled = registerFrom c (handed s args) callback s.args args marshaled := by
  simp only [register, hcallback, handed]

theorem register_spec (c : Callbacks) {s : Signature} (hs : s.Sound) {trampoline : Option UInt64} {marshaled : List Arg}
    (hall : List.Forall₂ (fun place arg => Arg.Carries h trampoline (fun w _ => w = 0) place.1 place.2 arg)
      (s.args.zip args) marshaled) :
    List.Forall₂ (fun place arg => Arg.Carries h trampoline
        (Names (register c s args marshaled).1 (handed s args)) place.1 place.2 arg)
        (s.args.zip args) (register c s args marshaled).2
      ∧ ∀ slot r, c.At slot r → (register c s args marshaled).1.At slot r := by
  cases hcallback : s.callback with
  | some callback =>
    rw [register_eq c hcallback]
    exact registerFrom_spec c (handed s args) callback hall
  | none =>
    simp only [register, hcallback]
    refine ⟨?_, fun _ _ hr => hr⟩
    -- without a callback there is no place for a token
    obtain ⟨hlength, hzip⟩ := List.forall₂_iff_zip.mp hall
    refine List.forall₂_iff_zip.mpr ⟨hlength, fun {place arg} hmem => (hzip hmem).mono fun _ htype => ?_⟩
    have huserdata : .userdata ∈ s.args := htype ▸ (List.of_mem_zip (List.of_mem_zip hmem).1).1
    have hsome := hs.callback (hs.paired huserdata)
    rw [hcallback] at hsome
    cases hsome

/-! ## Calls -/

/-- What a call does when native code is done. -/
def afterNative (f : ForeignFunction) (m : Machine W) (result : Except Error Arg) : Action W Value :=
  match result with
  | .error e => .done { m with nativeCalls := m.nativeCalls - 1 } (.error e)
  | .ok arg =>
    Action.ofWork (onHeap fun h => Arg.toValue h f.signature.ret arg) { m with nativeCalls := m.nativeCalls - 1 }

/-- A call that is refused leaves the machine as it was. -/
theorem callForeign_of_refused {env : Embedding W} {m : Machine W} {id : SignatureId} {e : Error}
    (hfunction : m.heap.foreignFunction id = .ok f) (hrefused : marshal m.heap f args = .error e) :
    callForeign env m id args = .done m (.error (e.within "failed to call FFIed function")) := by
  simp only [callForeign, Action.ofWork, acceptCall, bind_eq, inspect, hfunction, hrefused, Except.mapError]
  rfl

/-- A call that is accepted registers its callback and calls native code. -/
theorem callForeign_of_marshaled {env : Embedding W} {host : Ffi.Host W} {m : Machine W} {id : SignatureId}
    {marshaled : List Arg} (hfunction : m.heap.foreignFunction id = .ok f) (hhost : env.host = some host)
    (hmarshaled : marshal m.heap f args = .ok marshaled) :
    callForeign env m id args
      = (host.call { m with
          callbacks := (register m.callbacks f.signature args marshaled).1
          nativeCalls := m.nativeCalls + 1 } f (register m.callbacks f.signature args marshaled).2).bind
            (afterNative f) := by
  have hrequire : env.requireHost = .ok host := by simp [Embedding.requireHost, hhost]
  simp only [callForeign, Action.ofWork, acceptCall, bind_eq, inspect, hfunction, hmarshaled, hrequire,
    Except.mapError]
  rfl

/-! ## The number of native calls -/

/-- As many native calls are under way. -/
def SameCalls (m m' : Machine W) : Prop :=
  m'.nativeCalls = m.nativeCalls

theorem nativeCalls_collect (m : Machine W) (full : Bool) : (m.collect full).1.nativeCalls = m.nativeCalls := by
  simp only [collect]
  split <;> rfl

theorem course_sameCalls : Course (SameCalls (W := W)) True where
  trans h h' := Eq.trans h' h
  apart h := congrArg Store.nativeCalls h
  change _ := rfl
  poll m := by
    unfold collectIfNeeded
    split
    · exact nativeCalls_collect m false
    · rfl
  collect _ m full := nativeCalls_collect m full
  register _ _ := rfl
  free _ _ _ := rfl
  native h := congrArg (· - 1) h

/-- A call is all or nothing: either its arguments are not acceptable, and it fails with the machine as it
was; or native code is called once, on the machine with the callback registered, with one argument for each
declared one, in its category, where a token leads to the function of this call and the value next to it. In
both cases as many native calls are under way afterwards as before. -/
theorem callForeign_all_or_nothing {env : Embedding W} {host : Ffi.Host W} {m : Machine W} {id : SignatureId}
    {text : String} (args : List Value) (hfunction : m.heap.foreignFunction id = .ok f)
    (hparse : Signature.parse text = .ok f.signature) (hhost : env.host = some host) (henv : env.Keeps SameCalls) :
    ((¬ Acceptable f args
        ∧ ∃ e : Error, callForeign env m id args = .done m (.error (e.within "failed to call FFIed function")))
      ∨ (Acceptable f args ∧ ∃ (callbacks : Callbacks) (passed : List Arg),
          callForeign env m id args
            = (host.call { m with callbacks := callbacks, nativeCalls := m.nativeCalls + 1 } f passed).bind
                (afterNative f)
          ∧ List.Forall₂ (fun place arg => Arg.Carries m.heap f.trampoline
              (Names callbacks (handed f.signature args)) place.1 place.2 arg) (f.signature.args.zip args) passed
          ∧ (.userdata ∈ f.signature.args →
              ∃ i, f.signature.callbackIndex? = some i ∧ args[i]? = some (handed f.signature args))
          ∧ (callbacks.slots.size ≤ UInt32.size → ∀ w v, Names callbacks (handed f.signature args) w v →
              ∃ r, callbacks.get? (.ofWord w) = some r ∧ r.Pairs (handed f.signature args) v)
          ∧ ∀ slot r, m.callbacks.At slot r → callbacks.At slot r))
      ∧ ∀ budget m' result, perform env (callForeign env m id args) budget = .done m' result →
          m'.nativeCalls = m.nativeCalls := by
  have hsound := Signature.sound_of_parse hparse
  refine ⟨?_, fun budget m' result hdone => course_sameCalls.perform henv (m := m) (fun _ _ _ => trivial)
    (course_sameCalls.callForeign henv m id args) hdone⟩
  by_cases hacceptable : Acceptable f args
  · refine .inr ⟨hacceptable, ?_⟩
    obtain ⟨hcount, hfits⟩ := hacceptable
    obtain ⟨marshaled, hmarshaled, hall⟩ := marshalFrom_of_fits (h := m.heap) 0 hfits
      fun huserdata => hsound.callback (hsound.paired huserdata)
    obtain ⟨hcarry, hkeep⟩ := register_spec m.callbacks hsound hall
    have hmarshal : marshal m.heap f args = .ok marshaled := by rw [marshal, if_pos hcount, hmarshaled]
    exact ⟨_, _, callForeign_of_marshaled hfunction hhost hmarshal, hcarry,
      fun huserdata => handed_eq hsound huserdata hcount, fun hroom w v hw => hw.get? hroom, hkeep⟩
  · refine .inl ⟨hacceptable, ?_⟩
    have hrefused : ∃ e, marshal m.heap f args = .error e := by
      by_cases hcount : args.length = f.signature.args.length
      · rw [marshal, if_pos hcount]
        refine marshalFrom_of_not_fits m.heap 0 ?_
        by_contra hall
        push Not at hall
        exact hacceptable ⟨hcount, hall⟩
      · exact ⟨_, by rw [marshal, if_neg hcount]⟩
    obtain ⟨e, he⟩ := hrefused
    exact ⟨e, callForeign_of_refused hfunction he⟩

/-! ## Native code that answers -/

/-- Native code that does nothing with its arguments. -/
def answer : Ffi.Host Unit where
  resolve _ := some 3
  trampoline _ := some 64
  call m _ _ := .done m (.ok (.word 0))
  readByte _ address := .error (Ffi.Host.refuseRead address)
  writeByte _ address _ := .error (Ffi.Host.refuseWrite address)

/-- An embedder with this native code. -/
def answering : Embedding Unit := ⟨#[], some answer, fun _ _ => .unknown⟩

theorem answering_keeps {R : Machine Unit → Machine Unit → Prop} (h : ∀ m, R m m) : answering.Keeps R where
  natives f hf := by simp [answering] at hf
  host host hhost m f args := by
    cases hhost
    exact h m

/-- A function that takes a callback. -/
def prototype : String := "int call(int (*)(userdata, int), userdata, int)"

/-- What is found for it. -/
def resolved : ForeignFunction :=
  ⟨⟨"call", .int, [.callback, .userdata, .int], some ⟨"", .int, [.userdata, .int], none⟩⟩, 3, some 64⟩

/-- A machine on which it was found. -/
def resolvedOn : Machine Unit := leftBy (resolveForeign answering prototype (bare {} ⟨"", none⟩ ()))

theorem foreignFunction_resolvedOn : resolvedOn.heap.foreignFunction ⟨⟨0, 0⟩⟩ = .ok resolved := by
  with_unfolding_all rfl

theorem parse_prototype : Signature.parse prototype = .ok resolved.signature := by
  rfl

/-- A function, nothing to go with it, and a number. -/
def callArgs : List Value := [.function ⟨2, by decide⟩, .null, .ofNat 5]

theorem acceptable_callArgs : Acceptable resolved callArgs := by
  refine ⟨rfl, ?_⟩
  simp only [resolved, callArgs, List.zip_cons_cons, List.zip_nil_right, List.forall_mem_cons, CType.Fits]
  refine ⟨⟨⟨_, rfl⟩, rfl⟩, trivial, .inl ⟨_, rfl, by decide⟩, by simp⟩

theorem callForeign_all_or_nothing_answering :
    resolvedOn.heap.foreignFunction ⟨⟨0, 0⟩⟩ = .ok resolved ∧ Signature.parse prototype = .ok resolved.signature
      ∧ answering.host = some answer ∧ answering.Keeps SameCalls
      ∧ ∃ (callbacks : Callbacks) (passed : List Arg),
          callForeign answering resolvedOn ⟨⟨0, 0⟩⟩ callArgs
            = (answer.call { resolvedOn with callbacks := callbacks, nativeCalls := 1 } resolved passed).bind
                (afterNative resolved)
          ∧ passed.length = 3 := by
  have hkeeps : answering.Keeps SameCalls := answering_keeps fun _ => rfl
  refine ⟨foreignFunction_resolvedOn, parse_prototype, rfl, hkeeps, ?_⟩
  have hcall := (callForeign_all_or_nothing callArgs foreignFunction_resolvedOn parse_prototype rfl hkeeps).1
  obtain ⟨-, callbacks, passed, heq, hcarry, -⟩ := hcall.resolve_left fun hrefused => hrefused.1 acceptable_callArgs
  exact ⟨callbacks, passed, heq, hcarry.length_eq.symm⟩

end Machine

end ScriptEngine
