import ScriptEngine.Ffi.Signature
/-!
What is known of a signature that was read.

A text that is read and checked gives a signature whose arguments all have categories that can be passed, and
where a value that goes with a callback stands next to a callback with a signature of its own
(`Signature.sound_of_parse`).
-/

namespace ScriptEngine.Ffi

/-- No text names the category of callbacks: they are written as prototypes. -/
theorem CType.ofChars?_ne_callback (cs : List Char) : CType.ofChars? cs ≠ some .callback := by
  unfold CType.ofChars?
  split <;> simp

namespace Signature

/-- What reading and checking say of a signature. -/
structure Sound (s : Signature) : Prop where
  /-- Texts pass by pointers to them, and nothing passes no value. -/
  passable : ∀ type ∈ s.args, type ≠ .void ∧ type ≠ .textStruct
  /-- A value that goes with a callback comes with one. -/
  paired : .userdata ∈ s.args → .callback ∈ s.args
  /-- A callback has a signature. -/
  callback : .callback ∈ s.args → s.callback.isSome

theorem ok_of_bind {α β : Type} {x : Except SignatureError α} {f : α → Except SignatureError β} {b : β}
    (h : x >>= f = .ok b) : ∃ a, x = .ok a ∧ f a = .ok b := by
  cases x with
  | ok a => exact ⟨a, rfl, h⟩
  | error e => cases h

/-! ## Checking -/

/-- What passes the check of arguments; where a value that goes with a callback was seen is not lost. -/
theorem of_checkArgs {isCallback : Bool} {place : Nat} {seen found : Option Nat} {types : List CType}
    (h : checkArgs isCallback place seen types = .ok found) :
    (∀ type ∈ types, type ≠ .void ∧ type ≠ .textStruct)
      ∧ (seen.isSome ∨ .userdata ∈ types → found.isSome) := by
  induction types generalizing place seen with
  | nil =>
    cases h
    simp
  | cons type rest ih =>
    -- a category that is let through leaves what was seen as it is
    have hpass (hnext : checkArgs isCallback (place + 1) seen rest = .ok found) (hvoid : type ≠ .void)
        (htext : type ≠ .textStruct) (huserdata : type ≠ .userdata) :
        (∀ t ∈ type :: rest, t ≠ .void ∧ t ≠ .textStruct)
          ∧ (seen.isSome ∨ .userdata ∈ type :: rest → found.isSome) := by
      obtain ⟨hplain, hfound⟩ := ih hnext
      refine ⟨List.forall_mem_cons.mpr ⟨⟨hvoid, htext⟩, hplain⟩, fun hseen => hfound ?_⟩
      exact hseen.imp_right fun hmem => (List.mem_cons.mp hmem).resolve_left huserdata.symm
    cases type with
    | userdata =>
      cases seen with
      | some first => cases h
      | none =>
        obtain ⟨hplain, hfound⟩ := ih h
        exact ⟨List.forall_mem_cons.mpr ⟨by simp, hplain⟩, fun _ => hfound (.inl rfl)⟩
    | callback =>
      cases isCallback with
      | true => cases seen <;> cases h
      | false => cases seen <;> exact hpass h (by simp) (by simp) (by simp)
    | void | textStruct => cases seen <;> cases h
    | _ => cases seen <;> exact hpass h (by simp) (by simp) (by simp)

/-- What passes the check of a function. -/
theorem of_validate {s : Signature} (h : s.validate = .ok ()) :
    (∀ type ∈ s.args, type ≠ .void ∧ type ≠ .textStruct) ∧ (.userdata ∈ s.args → .callback ∈ s.args) := by
  unfold validate at h
  dsimp only at h
  split at h
  · cases h
  · obtain ⟨found, hargs, h⟩ := ok_of_bind h
    obtain ⟨hplain, hfound⟩ := of_checkArgs hargs
    refine ⟨hplain, fun hmem => ?_⟩
    split at h
    · cases h
    · rename_i hsame
      have hboth : s.callbackIndex?.isSome = found.isSome := by simpa using hsame
      have hcallback : s.callbackIndex?.isSome = true := hboth.trans (hfound (.inr hmem))
      simpa [callbackIndex?] using hcallback

/-! ## Reading -/

/-- Reading arguments gives a signature of a callback where it gives a callback. -/
theorem of_readArgs {isCallback : Bool} {readCallback : List Char → Except SignatureError Signature}
    {pieces : List (List Char)} {args args' : List CType} {callback callback' : Option Signature}
    (hstart : .callback ∈ args → callback.isSome)
    (h : readArgs isCallback readCallback pieces args callback = .ok (args', callback')) :
    .callback ∈ args' → callback'.isSome := by
  induction pieces generalizing args callback with
  | nil =>
    cases h
    exact hstart
  | cons piece rest ih =>
    -- behind a piece, the others are read unless there are too many
    have hnext {arg : CType} (known : Option Signature) (hknown : .callback ∈ args ++ [arg] → known.isSome)
        (h : (do
          if maxArgs < (args ++ [arg]).length then throw (SignatureError.tooMany isCallback)
          readArgs isCallback readCallback rest (args ++ [arg]) known) = .ok (args', callback')) :
        .callback ∈ args' → callback'.isSome := by
      dsimp only at h
      split at h
      · cases h
      · exact ih hknown h
    unfold readArgs at h
    dsimp only at h
    split at h
    · cases callback with
      | some known => cases h
      | none =>
        obtain ⟨cb, -, h⟩ := ok_of_bind h
        exact hnext (some cb) (fun _ => rfl) h
    · obtain ⟨type, htype, h⟩ := ok_of_bind h
      refine hnext callback (fun hmem => ?_) h
      rcases List.mem_append.mp hmem with hmem | hmem
      · exact hstart hmem
      · obtain rfl := List.mem_singleton.mp hmem
        unfold readType at htype
        split at htype
        · rename_i hread
          cases htype
          exact absurd hread (CType.ofChars?_ne_callback piece)
        · cases htype

theorem of_read {isCallback : Bool} {cs : List Char} {budget : Nat} {s : Signature}
    (h : read isCallback cs budget = .ok s) : .callback ∈ s.args → s.callback.isSome := by
  cases budget with
  | zero => cases h
  | succ budget =>
    rw [read] at h
    obtain ⟨parts, -, h⟩ := ok_of_bind h
    split at h
    · cases h
    · dsimp only at h
      split at h
      · cases h
        simp
      · obtain ⟨⟨args, callback⟩, hargs, h⟩ := ok_of_bind h
        cases h
        exact of_readArgs (by simp) hargs

/-- What was read and passed the check. -/
theorem sound_of_parse {text : String} {s : Signature} (h : parse text = .ok s) : s.Sound := by
  obtain ⟨read, hread, h⟩ := ok_of_bind h
  obtain ⟨_, hvalid, h⟩ := ok_of_bind h
  cases h
  obtain ⟨hplain, hpaired⟩ := of_validate hvalid
  exact ⟨hplain, hpaired, of_read hread⟩

end Signature

end ScriptEngine.Ffi
