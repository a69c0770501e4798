import Mathlib.Logic.Relation
import ScriptEngine.Ffi.Callbacks
/-!
Registrations and their tokens through time.

A token is the number of a slot. Registering gives a slot that holds the function with its value
(`register_gives`), and takes nothing from any other. From then on the registration stands in its slot, with
the signature it was made with, until it is freed (`History.stays`); the slot of a freed one is empty until
another registration takes it (`History.empty`). So a token means what it was given for as long as its
registration lives, and means nothing after that unless its number is given out again.
-/

namespace ScriptEngine

theorem CallbackId.ofWord_toWord (id : CallbackId) : ofWord id.toWord = id := by
  simp [ofWord, toWord]

namespace Ffi

/-- The same function with the same value. -/
def Registration.Pairs (r : Registration) (func userdata : Value) : Prop :=
  r.func = func ∧ r.userdata = userdata

/-- A registration behind a change of the values that are kept alive. -/
def Registration.moved (r : Registration) (f : Value → Value) : Registration :=
  ⟨f r.func, f r.userdata, r.signature⟩

namespace Callbacks

variable {c c' d : Callbacks} {slot place : Nat} {q r : Registration} {func userdata : Value}

/-- A registration stands in a slot. -/
def At (c : Callbacks) (slot : Nat) (r : Registration) : Prop :=
  c.slots[slot]? = some (some r)

/-- No registration stands in a slot. -/
def Empty (c : Callbacks) (slot : Nat) : Prop :=
  ∀ r, ¬ c.At slot r

theorem At.unique (h : c.At slot q) (h' : c.At slot r) : q = r :=
  Option.some.inj (Option.some.inj (h.symm.trans h'))

theorem At.lt_size (h : c.At slot r) : slot < c.slots.size :=
  (Array.getElem?_eq_some_iff.mp h).1

/-! ## Slots and tokens -/

theorem holds_iff {entry : Option Registration} :
    holds func userdata entry = true ↔ ∃ r, entry = some r ∧ r.Pairs func userdata := by
  cases entry <;> simp [holds, Registration.Pairs]

theorem at_of_slotOf? (h : c.slotOf? func userdata = some slot) : ∃ r, c.At slot r ∧ r.Pairs func userdata := by
  obtain ⟨hlt, hholds, -⟩ := Array.findIdx?_eq_some_iff_getElem.mp h
  obtain ⟨r, hr, hpairs⟩ := holds_iff.mp hholds
  exact ⟨r, Array.getElem?_eq_some_iff.mpr ⟨hlt, hr⟩, hpairs⟩

theorem not_pairs_of_slotOf? (h : c.slotOf? func userdata = none) (hr : c.At slot r) : ¬ r.Pairs func userdata := by
  intro hpairs
  have hmem : some r ∈ c.slots := Array.mem_of_getElem? hr
  have hnone := Array.findIdx?_eq_none_iff.mp h (some r) hmem
  rw [holds_iff.mpr ⟨r, rfl, hpairs⟩] at hnone
  cases hnone

/-- As long as slots have numbers of 32 bits, a token leads to what stands in its slot. -/
theorem get?_token (hslot : slot < UInt32.size) : c.get? (token slot) = some r ↔ c.At slot r := by
  have hnumber : (UInt32.ofNat slot).toNat = slot := UInt32.toNat_ofNat_of_lt hslot
  simp [get?, token, hnumber, At, Option.join_eq_some_iff]

/-- Either a slot holds the function with the value already, and nothing changes, or an empty slot takes the
registration and no other slot changes. -/
theorem register_cases (c : Callbacks) (r : Registration) :
    (∃ slot q, c.At slot q ∧ q.Pairs r.func r.userdata ∧ c.register r = (c, token slot))
      ∨ ∃ slot, c.Empty slot ∧ (∀ place q, c.At place q → ¬ q.Pairs r.func r.userdata)
          ∧ (c.register r).2 = token slot
          ∧ ∀ place q, (c.register r).1.At place q ↔ if place = slot then q = r else c.At place q := by
  cases hfound : c.slotOf? r.func r.userdata with
  | some slot =>
    obtain ⟨q, hq, hpairs⟩ := at_of_slotOf? hfound
    exact .inl ⟨slot, q, hq, hpairs, by simp [register, hfound]⟩
  | none =>
    refine .inr ?_
    have hnew : ∀ place q, c.At place q → ¬ q.Pairs r.func r.userdata := fun _ _ => not_pairs_of_slotOf? hfound
    cases hfree : c.slots.findIdx? Option.isNone with
    | some slot =>
      obtain ⟨hlt, hnone, -⟩ := Array.findIdx?_eq_some_iff_getElem.mp hfree
      refine ⟨slot, fun q hq => ?_, hnew, by simp [register, hfound, hfree], fun place q => ?_⟩
      · obtain ⟨_, hsome⟩ := Array.getElem?_eq_some_iff.mp hq
        rw [hsome] at hnone
        cases hnone
      · simp only [register, hfound, hfree, At, Array.getElem?_setIfInBounds]
        split
        · rename_i heq
          subst heq
          simp [eq_comm]
        · rename_i hne
          rw [if_neg (Ne.symm hne)]
    | none =>
      refine ⟨c.slots.size, fun q hq => absurd hq.lt_size (Nat.lt_irrefl _), hnew, by simp [register, hfound, hfree],
        fun place q => ?_⟩
      simp only [register, hfound, hfree, At, Array.getElem?_push]
      split
      · simp [eq_comm]
      · rfl

/-- What registering gives is the token of a slot with the function and its value. Only where the two stood
before does the slot keep an older signature. -/
theorem register_gives (c : Callbacks) (r : Registration) :
    ∃ slot q, (c.register r).2 = token slot ∧ (c.register r).1.At slot q ∧ q.Pairs r.func r.userdata
      ∧ (q = r ∨ c.At slot q) := by
  rcases register_cases c r with ⟨slot, q, hq, hpairs, heq⟩ | ⟨slot, -, -, htoken, hat⟩
  · exact ⟨slot, q, by rw [heq], by rwa [heq], hpairs, .inr hq⟩
  · exact ⟨slot, r, htoken, (hat slot r).mpr (by simp), ⟨rfl, rfl⟩, .inl rfl⟩

theorem At.register (h : c.At slot q) (r : Registration) : (c.register r).1.At slot q := by
  rcases register_cases c r with ⟨_, _, -, -, heq⟩ | ⟨place, hempty, -, -, hat⟩
  · rwa [heq]
  · refine (hat slot q).mpr ?_
    have hother : slot ≠ place := by
      rintro rfl
      exact hempty q h
    rwa [if_neg hother]

theorem at_of_register (h : (c.register r).1.At slot q) : c.At slot q ∨ q = r := by
  rcases register_cases c r with ⟨_, _, -, -, heq⟩ | ⟨place, -, -, -, hat⟩
  · rw [heq] at h
    exact .inl h
  · have hq := (hat slot q).mp h
    split at hq
    · exact .inr hq
    · exact .inl hq

/-- A slot that was empty and is not behind a registration is the one whose token was given. -/
theorem Empty.register (h : c.Empty slot) (r : Registration) :
    (c.register r).1.Empty slot ∨ ((c.register r).2 = token slot ∧ (c.register r).1.At slot r) := by
  rcases register_cases c r with ⟨_, _, -, -, heq⟩ | ⟨place, -, -, htoken, hat⟩
  · rw [heq]
    exact .inl h
  · by_cases hplace : slot = place
    · subst hplace
      exact .inr ⟨htoken, (hat slot r).mpr (by simp)⟩
    · refine .inl fun q hq => h q ?_
      simpa [hplace] using (hat slot q).mp hq

/-! ## Freeing and moving -/

theorem at_remove : (c.remove func userdata).1.At place r
    ↔ c.At place r ∧ c.slotOf? func userdata ≠ some place := by
  unfold remove
  cases hfound : c.slotOf? func userdata with
  | none => simp
  | some slot =>
    simp only [At, Array.getElem?_setIfInBounds]
    by_cases hslot : slot = place
    · subst hslot
      simp
    · simp [hslot]

theorem At.map (h : c.At slot r) (f : Value → Value) : (c.map f).At slot (r.moved f) := by
  simp only [At] at h
  simp [At, Callbacks.map, h, Registration.moved]

theorem Empty.map (h : c.Empty slot) (f : Value → Value) : (c.map f).Empty slot := by
  intro q hq
  simp only [At, Callbacks.map, Array.getElem?_map, Option.map_eq_some_iff] at hq
  obtain ⟨entry, hentry, r, hr, -⟩ := hq
  exact h r (hentry.trans (congrArg some hr))

/-! ## History -/

/-- What happens to registrations. -/
inductive Change (c : Callbacks) : Callbacks → Prop where
  | register (r : Registration) : Change c (c.register r).1
  | free (func userdata : Value) : Change c (c.remove func userdata).1
  /-- The values that registrations keep alive are somewhere else. -/
  | move (f : Value → Value) : Change c (c.map f)

/-- A row of changes. -/
def History : Callbacks → Callbacks → Prop :=
  Relation.ReflTransGen Change

/-- A registration stays in its slot unless it is freed by its function and value. -/
theorem Change.stays (h : c.Change c') (hr : c.At slot r) :
    (∃ f, c'.At slot (r.moved f)) ∨ (c' = (c.remove r.func r.userdata).1 ∧ c'.Empty slot) := by
  cases h with
  | register q => exact .inl ⟨id, hr.register q⟩
  | free func userdata =>
    by_cases hfound : c.slotOf? func userdata = some slot
    · obtain ⟨q, hq, rfl, rfl⟩ := at_of_slotOf? hfound
      obtain rfl := hr.unique hq
      exact .inr ⟨rfl, fun q hq => (at_remove.mp hq).2 hfound⟩
    · exact .inl ⟨id, at_remove.mpr ⟨hr, hfound⟩⟩
  | move f => exact .inl ⟨f, hr.map f⟩

/-- An empty slot stays empty unless a registration takes it, which gives its token out. -/
theorem Change.empty (h : c.Change c') (hslot : c.Empty slot) :
    c'.Empty slot ∨ ∃ r, c' = (c.register r).1 ∧ (c.register r).2 = token slot ∧ c'.At slot r := by
  cases h with
  | register r =>
    rcases hslot.register r with hempty | ⟨htoken, hat⟩
    · exact .inl hempty
    · exact .inr ⟨r, rfl, htoken, hat⟩
  | free func userdata => exact .inl fun q hq => hslot q (at_remove.mp hq).1
  | move f => exact .inl (hslot.map f)

/-- A registration stands in its slot with the signature it was made with until it is freed. -/
theorem History.stays (h : c.History c') (hr : c.At slot r) :
    (∃ f, c'.At slot (r.moved f))
      ∨ ∃ d f, c.History d ∧ d.At slot (r.moved f)
          ∧ (d.remove (f r.func) (f r.userdata)).1.History c' ∧ (d.remove (f r.func) (f r.userdata)).1.Empty slot := by
  induction h with
  | refl => exact .inl ⟨id, hr⟩
  | @tail b d hbefore hchange ih =>
    rcases ih with ⟨f, hb⟩ | ⟨e, f, he, hfreed, hafter, hempty⟩
    · rcases hchange.stays hb with ⟨g, hd⟩ | ⟨rfl, hempty⟩
      · exact .inl ⟨g ∘ f, hd⟩
      · exact .inr ⟨b, f, hbefore, hb, .refl, hempty⟩
    · exact .inr ⟨e, f, he, hfreed, hafter.tail hchange, hempty⟩

/-- The slot of a freed registration is empty until another one takes it. -/
theorem History.empty (h : c.History c') (hslot : c.Empty slot) :
    c'.Empty slot
      ∨ ∃ d r, c.History d ∧ d.Empty slot ∧ (d.register r).2 = token slot ∧ (d.register r).1.At slot r
          ∧ (d.register r).1.History c' := by
  induction h with
  | refl => exact .inl hslot
  | @tail b d hbefore hchange ih =>
    rcases ih with hb | ⟨e, r, he, hempty, htoken, hat, hafter⟩
    · rcases hchange.empty hb with hd | ⟨r, rfl, htoken, hat⟩
      · exact .inl hd
      · exact .inr ⟨b, r, hbefore, hb, htoken, hat, .refl⟩
    · exact .inr ⟨e, r, he, hempty, htoken, hat, hafter.tail hchange⟩

end Callbacks

end Ffi

end ScriptEngine
