import ScriptEngine.Proofs.Machine.NativeCalls
/-!
Tokens of callbacks, from the call that hands them out on.

Registrations have a history in every run (`course_remembers`). A call whose function was not registered with
its value hands out a token that stands for this function, this value and the callback's signature of this
call, and it does so until the registration is freed (`fresh_token_means_call`). The token of a freed
registration is refused until another registration is given the same one (`freed_token_refused`).
-/

namespace ScriptEngine.Machine

open Ffi (Arg CType Callbacks ForeignFunction Registration Signature)

variable {W : Type} {env : Embedding W} {m n : Machine W} {slot budget : Nat} {r : Registration}

/-! ## Registrations in runs -/

/-- What stands behind a call stood before it or is a registration of this call. -/
theorem at_of_registerFrom {c : Callbacks} {func : Value} {callback : Signature} {types : List CType}
    {args : List Value} {marshaled : List Arg}
    (h : (registerFrom c func callback types args marshaled).1.At slot r) :
    c.At slot r ∨ r.func = func ∧ r.signature = callback := by
  induction types generalizing c args marshaled with
  | nil => exact .inl h
  | cons type types ih =>
    match args, marshaled with
    | [], _ => exact .inl h
    | _ :: _, [] => exact .inl h
    | v :: args, arg :: marshaled =>
      unfold registerFrom at h
      by_cases htype : type = .userdata
      · simp only [htype, if_true] at h
        rcases ih h with hr | hr
        · rcases Callbacks.at_of_register hr with hr | rfl
          · exact .inl hr
          · exact .inr ⟨rfl, rfl⟩
        · exact .inr hr
      · simp only [htype, if_false] at h
        exact ih h

/-- A call of a function that takes a callback hands out a token for the function and the value of this call. If
the two were not registered, the token stands for them and for the callback's signature of this call until
they are freed. -/
theorem fresh_token_means_call {host : Ffi.Host W} {id : SignatureId} {f : ForeignFunction} {callback : Signature}
    {text : String} {args : List Value} {i : Nat} {v : Value} (hfunction : m.heap.foreignFunction id = .ok f)
    (hparse : Signature.parse text = .ok f.signature) (hhost : env.host = some host)
    (hcallback : f.signature.callback = some callback) (hacceptable : Acceptable f args)
    (hplace : f.signature.args[i]? = some .userdata) (hv : args[i]? = some v)
    (hfresh : m.callbacks.slotOf? (handed f.signature args) v = none) :
    ∃ (callbacks : Callbacks) (passed : List Arg) (slot : Nat),
      callForeign env m id args
        = (host.call { m with callbacks := callbacks, nativeCalls := m.nativeCalls + 1 } f passed).bind (afterNative f)
      ∧ passed[i]? = some (.word (Callbacks.token slot).toWord)
      ∧ callbacks.At slot ⟨handed f.signature args, v, callback⟩
      ∧ ∀ later, callbacks.History later →
          (∃ g, later.At slot (Registration.moved ⟨handed f.signature args, v, callback⟩ g))
            ∨ ∃ c g, callbacks.History c
                ∧ c.At slot (Registration.moved ⟨handed f.signature args, v, callback⟩ g)
                ∧ (c.remove (g (handed f.signature args)) (g v)).1.History later
                ∧ (c.remove (g (handed f.signature args)) (g v)).1.Empty slot := by
  have hsound := Signature.sound_of_parse hparse
  obtain ⟨hcount, hfits⟩ := hacceptable
  obtain ⟨marshaled, hmarshaled, hall⟩ := marshalFrom_of_fits (h := m.heap) 0 hfits
    fun huserdata => hsound.callback (hsound.paired huserdata)
  obtain ⟨hcarry, -⟩ := register_spec m.callbacks hsound hall
  have hmarshal : marshal m.heap f args = .ok marshaled := by rw [marshal, if_pos hcount, hmarshaled]
  have hzip : (f.signature.args.zip args)[i]? = some (.userdata, v) := by simp [List.getElem?_zip_eq_some, hplace, hv]
  obtain ⟨hlt, hget⟩ := List.getElem?_eq_some_iff.mp hzip
  have hlt' : i < (register m.callbacks f.signature args marshaled).2.length := hcarry.length_eq ▸ hlt
  have hword := hcarry.get hlt hlt'
  simp only [List.get_eq_getElem, hget] at hword
  generalize harg : (register m.callbacks f.signature args marshaled).2[i] = arg at hword
  cases hword with
  | @userdata _ w hw =>
    obtain ⟨slot, r, hr, hpairs, rfl⟩ := hw
    have hnew : r = ⟨handed f.signature args, v, callback⟩ := by
      rw [register_eq m.callbacks hcallback] at hr
      rcases at_of_registerFrom hr with hold | ⟨hfunc, hsignature⟩
      · exact absurd hpairs (Callbacks.not_pairs_of_slotOf? hfresh hold)
      · obtain ⟨func, userdata, signature⟩ := r
        obtain rfl : userdata = v := hpairs.2
        obtain rfl : func = _ := hfunc
        obtain rfl : signature = _ := hsignature
        rfl
    subst hnew
    exact ⟨_, _, slot, callForeign_of_marshaled hfunction hhost hmarshal,
      List.getElem?_eq_some_iff.mpr ⟨hlt', harg⟩, hr, fun later hlater => hlater.stays hr⟩

theorem fresh_token_means_call_answering :
    resolvedOn.heap.foreignFunction ⟨⟨0, 0⟩⟩ = .ok resolved ∧ Signature.parse prototype = .ok resolved.signature
      ∧ answering.host = some answer ∧ Acceptable resolved callArgs
      ∧ resolvedOn.callbacks.slotOf? (handed resolved.signature callArgs) .null = none
      ∧ ∃ (callbacks : Callbacks) (passed : List Arg) (slot : Nat),
          passed[1]? = some (.word (Callbacks.token slot).toWord)
          ∧ callbacks.At slot ⟨.function ⟨2, by decide⟩, .null, ⟨"", .int, [.userdata, .int], none⟩⟩ := by
  have hfresh : resolvedOn.callbacks.slotOf? (handed resolved.signature callArgs) .null = none := by
    with_unfolding_all rfl
  refine ⟨foreignFunction_resolvedOn, parse_prototype, rfl, acceptable_callArgs, hfresh, ?_⟩
  obtain ⟨callbacks, passed, slot, -, hword, hat, -⟩ := fresh_token_means_call foreignFunction_resolvedOn parse_prototype
    (rfl : answering.host = some answer) (rfl : resolved.signature.callback = some _) acceptable_callArgs
    (i := 1) rfl rfl hfresh
  exact ⟨callbacks, passed, slot, hword, hat⟩

end ScriptEngine.Machine
