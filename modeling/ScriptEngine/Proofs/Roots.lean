import Mathlib.Data.List.Basic
import ScriptEngine.Heap.Strings
import ScriptEngine.Roots
/-!
Histories of pinned values.

Any row of requests is made of new roots, of values put under roots, of releases and of collections, which move
strings. A root has the value that was put under it last until it is released, and its name is good for nothing
afterwards, as long as its slot is released fewer times than there are generations (`root_until_released`). With that
many releases the generations of the slot come round, and the name stands for another root (`released_root_returns`).
-/

namespace ScriptEngine.Roots

/-- What can be asked of roots. -/
inductive Request where
  | own (v : Value)
  | disown (id : RootId)
  | set (id : RootId) (v : Value)
  /-- A collection says where strings went. -/
  | collect (moves : StringHeap.Relocation)

/-- The roots behind a request. -/
def after (r : Roots) : Request → Roots
  | .own v => (r.add v).1
  | .disown id => (r.remove id).1
  | .set id v => (r.set id v).1
  | .collect moves => r.map (StringHeap.relocate moves)

/-- The roots behind a row of requests. -/
def run (r : Roots) (requests : List Request) : Roots :=
  requests.foldl after r

/-- The value of a live root behind a request that does not release it. -/
def storedBy (id : RootId) (v : Value) : Request → Value
  | .set id' w => if id' = id then w else v
  | .collect moves => StringHeap.relocate moves v
  | _ => v

/-- The value put under a root last, where it was moved to since. -/
def lastStored (id : RootId) (v : Value) (requests : List Request) : Value :=
  requests.foldl (storedBy id) v

/-- Whether a request releases a slot, as a number. -/
def releasesBy (r : Roots) (slot : Nat) : Request → Nat
  | .disown id => if id.cell.index.toNat = slot ∧ (r.get? id).isSome then 1 else 0
  | _ => 0

/-- How many times a slot is released by a row of requests. -/
def releases (r : Roots) (slot : Nat) : List Request → Nat
  | [] => 0
  | q :: qs => r.releasesBy slot q + (r.after q).releases slot qs

/-- How many generations a slot goes through before they come round. -/
def generations : Nat := UInt16.size

/-! ## Slots -/

/-- Released slots hold nothing and are listed once. -/
structure Sound (r : Roots) : Prop where
  vacant : ∀ i ∈ r.free, ∃ generation, r.slots[i]? = some ⟨generation, none⟩
  nodup : r.free.toList.Nodup

theorem sound_empty : empty.Sound :=
  ⟨fun i h => by simp [empty] at h, List.nodup_nil⟩

section Slots

variable {r : Roots} {id : RootId} {v w : Value} {i : Nat}

theorem get?_eq_some :
    r.get? id = some v ↔ r.slots[id.cell.index.toNat]? = some ⟨id.cell.generation, some v⟩ := by
  unfold get? slot?
  cases hslot : r.slots[id.cell.index.toNat]? with
  | none => simp
  | some slot =>
    obtain ⟨generation, value⟩ := slot
    by_cases hgeneration : generation = id.cell.generation
    · simp [Option.filter, hgeneration]
    · simp [Option.filter, hgeneration]

theorem get?_eq_none_of_generation {slot : RootSlot} (h : r.slots[id.cell.index.toNat]? = some slot)
    (hne : slot.generation ≠ id.cell.generation) : r.get? id = none := by
  rw [Option.eq_none_iff_forall_ne_some]
  intro v hv
  rw [get?_eq_some, h] at hv
  cases hv
  exact hne rfl

/-- A request through a bad name changes nothing. -/
theorem refused_of_get?_eq_none (h : r.get? id = none) :
    (∀ w, r.set id w = (r, false)) ∧ r.remove id = (r, false) := by
  unfold set remove
  simp [h]

theorem set_of_get? (h : r.get? id = some v) (w : Value) :
    r.set id w
      = ({ r with slots := r.slots.setIfInBounds id.cell.index.toNat ⟨id.cell.generation, some w⟩ }, true) := by
  unfold set
  simp [h]

theorem remove_of_get? (h : r.get? id = some v) :
    r.remove id
      = (⟨r.slots.setIfInBounds id.cell.index.toNat ⟨id.cell.generation + 1, none⟩,
          r.free.push id.cell.index.toNat⟩, true) := by
  unfold remove
  simp [h]

/-- A released slot that is used again keeps its generation. -/
theorem Sound.add_vacant (h : r.Sound) (hback : r.free.back? = some i) (v : Value) :
    ∃ generation, r.slots[i]? = some ⟨generation, none⟩
      ∧ r.add v = (⟨r.slots.setIfInBounds i ⟨generation, some v⟩, r.free.pop⟩, ⟨⟨UInt32.ofNat i, generation⟩⟩) := by
  obtain ⟨generation, hslot⟩ := h.vacant i (Array.mem_of_back? hback)
  refine ⟨generation, hslot, ?_⟩
  unfold add
  simp [hback, hslot]

theorem add_new (hback : r.free.back? = none) (v : Value) :
    r.add v = (⟨r.slots.push ⟨0, some v⟩, r.free⟩, ⟨⟨UInt32.ofNat r.slots.size, 0⟩⟩) := by
  unfold add
  rw [hback]

/-! ## Single requests -/

theorem Sound.add (h : r.Sound) (v : Value) : (r.add v).1.Sound := by
  cases hback : r.free.back? with
  | none =>
    rw [add_new hback]
    refine ⟨fun i hi => ?_, h.nodup⟩
    obtain ⟨generation, hslot⟩ := h.vacant i hi
    have hlt := (Array.getElem?_eq_some_iff.mp hslot).1
    exact ⟨generation, by rw [Array.getElem?_push, if_neg (Nat.ne_of_lt hlt), hslot]⟩
  | some i =>
    obtain ⟨generation, -, hadd⟩ := h.add_vacant hback v
    have hfree : r.free.toList = r.free.pop.toList ++ [i] := by
      rw [Array.toList_pop, List.dropLast_append_getLast?]
      rwa [Option.mem_def, Array.getLast?_toList]
    have hnodup := h.nodup
    rw [hfree, List.nodup_append] at hnodup
    rw [hadd]
    refine ⟨fun j hj => ?_, hnodup.1⟩
    obtain ⟨old, hslot⟩ := h.vacant j (by
      rw [← Array.mem_toList_iff, hfree]
      exact List.mem_append_left _ (Array.mem_toList_iff.mpr hj))
    have hne : i ≠ j := fun heq =>
      hnodup.2.2 j (Array.mem_toList_iff.mpr hj) i List.mem_cons_self heq.symm
    exact ⟨old, by rw [Array.getElem?_setIfInBounds_ne hne, hslot]⟩

theorem Sound.set (h : r.Sound) (id : RootId) (w : Value) : (r.set id w).1.Sound := by
  cases hget : r.get? id with
  | none => rwa [(refused_of_get?_eq_none hget).1 w]
  | some v =>
    rw [set_of_get? hget]
    refine ⟨fun i hi => ?_, h.nodup⟩
    obtain ⟨generation, hslot⟩ := h.vacant i hi
    have hne : id.cell.index.toNat ≠ i := by
      rintro rfl
      rw [get?_eq_some, hslot] at hget
      cases hget
    exact ⟨generation, by rw [Array.getElem?_setIfInBounds_ne hne, hslot]⟩

theorem Sound.remove (h : r.Sound) (id : RootId) : (r.remove id).1.Sound := by
  cases hget : r.get? id with
  | none => rwa [(refused_of_get?_eq_none hget).2]
  | some v =>
    have hlive := get?_eq_some.mp hget
    have hfresh : id.cell.index.toNat ∉ r.free := by
      intro hmem
      obtain ⟨generation, hslot⟩ := h.vacant _ hmem
      rw [hslot] at hlive
      cases hlive
    rw [remove_of_get? hget]
    refine ⟨fun i hi => ?_, ?_⟩
    · rcases Array.mem_push.mp hi with hold | rfl
      · obtain ⟨generation, hslot⟩ := h.vacant i hold
        have hne : id.cell.index.toNat ≠ i := fun heq => hfresh (heq ▸ hold)
        exact ⟨generation, by rw [Array.getElem?_setIfInBounds_ne hne, hslot]⟩
      · exact ⟨_, Array.getElem?_setIfInBounds_self_of_lt (Array.getElem?_eq_some_iff.mp hlive).1⟩
    · rw [Array.toList_push, List.nodup_append]
      refine ⟨h.nodup, List.pairwise_singleton _ _, fun j hj k hk => ?_⟩
      rw [List.mem_singleton] at hk
      rintro rfl
      exact hfresh (hk ▸ Array.mem_toList_iff.mp hj)

theorem Sound.map (h : r.Sound) (f : Value → Value) : (r.map f).Sound := by
  refine ⟨fun i hi => ?_, h.nodup⟩
  obtain ⟨generation, hslot⟩ := h.vacant i hi
  exact ⟨generation, by simp [Roots.map, hslot]⟩

theorem Sound.after (h : r.Sound) (q : Request) : (r.after q).Sound := by
  cases q with
  | own v => exact h.add v
  | disown id => exact h.remove id
  | set id v => exact h.set id v
  | collect moves => exact h.map _

/-- A slot moves on by a generation when it is released, and only then. -/
theorem Sound.generation_after (h : r.Sound) {slot : RootSlot} (hslot : r.slots[i]? = some slot) (q : Request) :
    ∃ slot', (r.after q).slots[i]? = some slot'
      ∧ slot'.generation = slot.generation + UInt16.ofNat (r.releasesBy i q) := by
  have hlt := (Array.getElem?_eq_some_iff.mp hslot).1
  have hsame : slot.generation = slot.generation + UInt16.ofNat 0 := (UInt16.add_zero _).symm
  cases q with
  | own v =>
    show ∃ slot', (r.add v).1.slots[i]? = some slot' ∧ _
    cases hback : r.free.back? with
    | none =>
      rw [add_new hback]
      exact ⟨slot, by rw [Array.getElem?_push, if_neg (Nat.ne_of_lt hlt), hslot], hsame⟩
    | some j =>
      obtain ⟨generation, hvacant, hadd⟩ := h.add_vacant hback v
      rw [hadd]
      by_cases hj : j = i
      · subst hj
        rw [hslot] at hvacant
        cases hvacant
        exact ⟨_, Array.getElem?_setIfInBounds_self_of_lt hlt, hsame⟩
      · exact ⟨slot, by rw [Array.getElem?_setIfInBounds_ne hj, hslot], hsame⟩
  | disown id =>
    show ∃ slot', (r.remove id).1.slots[i]? = some slot' ∧ _
    cases hget : r.get? id with
    | none =>
      rw [(refused_of_get?_eq_none hget).2]
      exact ⟨slot, hslot, by simp [releasesBy, hget]⟩
    | some v =>
      rw [remove_of_get? hget]
      by_cases hid : id.cell.index.toNat = i
      · have hlive := get?_eq_some.mp hget
        rw [hid, hslot] at hlive
        cases hlive
        exact ⟨_, by rw [hid]; exact Array.getElem?_setIfInBounds_self_of_lt hlt, by simp [releasesBy, hget, hid]⟩
      · exact ⟨slot, by rw [Array.getElem?_setIfInBounds_ne hid, hslot], by simp [releasesBy, hid]⟩
  | set id w =>
    show ∃ slot', (r.set id w).1.slots[i]? = some slot' ∧ _
    cases hget : r.get? id with
    | none =>
      rw [(refused_of_get?_eq_none hget).1]
      exact ⟨slot, hslot, hsame⟩
    | some v =>
      rw [set_of_get? hget]
      by_cases hid : id.cell.index.toNat = i
      · have hlive := get?_eq_some.mp hget
        rw [hid, hslot] at hlive
        cases hlive
        exact ⟨⟨id.cell.generation, some w⟩, by rw [hid]; exact Array.getElem?_setIfInBounds_self_of_lt hlt, hsame⟩
      · exact ⟨slot, by rw [Array.getElem?_setIfInBounds_ne hid, hslot], hsame⟩
  | collect moves =>
    exact ⟨{ slot with value := slot.value.map (StringHeap.relocate moves) }, by simp [Roots.after, Roots.map, hslot],
      hsame⟩

/-- A live root stays live unless it is released, and has what the request stores under it. -/
theorem Sound.get?_after (h : r.Sound) (hget : r.get? id = some v) {q : Request} (hq : q ≠ .disown id) :
    (r.after q).get? id = some (storedBy id v q) := by
  have hlive := get?_eq_some.mp hget
  have hlt := (Array.getElem?_eq_some_iff.mp hlive).1
  have hsameSlot {id' : RootId} {v' : Value} (hget' : r.get? id' = some v')
      (hindex : id'.cell.index.toNat = id.cell.index.toNat) : id' = id := by
    have hlive' := get?_eq_some.mp hget'
    rw [hindex, hlive] at hlive'
    obtain ⟨⟨index, generation⟩⟩ := id
    obtain ⟨⟨index', generation'⟩⟩ := id'
    cases hlive'
    cases UInt32.toNat_inj.mp hindex
    rfl
  rw [get?_eq_some]
  cases q with
  | own w =>
    show (r.add w).1.slots[id.cell.index.toNat]? = _
    cases hback : r.free.back? with
    | none => rw [add_new hback, Array.getElem?_push, if_neg (Nat.ne_of_lt hlt), hlive]; rfl
    | some j =>
      obtain ⟨generation, hvacant, hadd⟩ := h.add_vacant hback w
      have hne : j ≠ id.cell.index.toNat := by
        rintro rfl
        rw [hlive] at hvacant
        cases hvacant
      rw [hadd, Array.getElem?_setIfInBounds_ne hne, hlive]
      rfl
  | disown id' =>
    show (r.remove id').1.slots[id.cell.index.toNat]? = _
    cases hget' : r.get? id' with
    | none => rw [(refused_of_get?_eq_none hget').2, hlive]; rfl
    | some v' =>
      have hne : id'.cell.index.toNat ≠ id.cell.index.toNat := fun hindex =>
        hq (by rw [hsameSlot hget' hindex])
      rw [remove_of_get? hget', Array.getElem?_setIfInBounds_ne hne, hlive]
      rfl
  | set id' w =>
    show (r.set id' w).1.slots[id.cell.index.toNat]? = _
    by_cases hid : id' = id
    · subst hid
      rw [set_of_get? hget, Array.getElem?_setIfInBounds_self_of_lt hlt, storedBy, if_pos rfl]
    · rw [storedBy, if_neg hid]
      cases hget' : r.get? id' with
      | none => rw [(refused_of_get?_eq_none hget').1, hlive]
      | some v' =>
        have hne : id'.cell.index.toNat ≠ id.cell.index.toNat := fun hindex => hid (hsameSlot hget' hindex)
        rw [set_of_get? hget', Array.getElem?_setIfInBounds_ne hne, hlive]
  | collect moves => simp [Roots.after, Roots.map, hlive, storedBy]

/-- The name of a new root was good for nothing before, and the root has its value. -/
theorem Sound.get?_add (h : r.Sound) (hsize : r.slots.size < UInt32.size) (v : Value) :
    r.get? (r.add v).2 = none ∧ (r.add v).1.get? (r.add v).2 = some v := by
  have hindex {i : Nat} (hi : i ≤ r.slots.size) : (UInt32.ofNat i).toNat = i :=
    UInt32.toNat_ofNat_of_lt' (Nat.lt_of_le_of_lt hi hsize)
  rw [get?_eq_some, Option.eq_none_iff_forall_ne_some]
  cases hback : r.free.back? with
  | none =>
    rw [add_new hback]
    dsimp only
    rw [hindex (Nat.le_refl _)]
    refine ⟨fun w hw => ?_, Array.getElem?_push_size⟩
    have hlt := (Array.getElem?_eq_some_iff.mp (get?_eq_some.mp hw)).1
    rw [hindex (Nat.le_refl _)] at hlt
    exact Nat.lt_irrefl _ hlt
  | some i =>
    obtain ⟨generation, hvacant, hadd⟩ := h.add_vacant hback v
    have hlt := (Array.getElem?_eq_some_iff.mp hvacant).1
    rw [hadd]
    dsimp only
    rw [hindex (Nat.le_of_lt hlt)]
    refine ⟨fun w hw => ?_, Array.getElem?_setIfInBounds_self_of_lt hlt⟩
    have hlive := get?_eq_some.mp hw
    rw [hindex (Nat.le_of_lt hlt), hvacant] at hlive
    cases hlive

end Slots

/-! ## Rows of requests -/

section Rows

variable {r : Roots} {id : RootId} {v : Value} {i : Nat} {slot : RootSlot}

theorem Sound.run (h : r.Sound) (qs : List Request) : (r.run qs).Sound := by
  induction qs generalizing r with
  | nil => exact h
  | cons q qs ih => exact ih (h.after q)

theorem releases_append (r : Roots) (i : Nat) (qs qs' : List Request) :
    r.releases i (qs ++ qs') = r.releases i qs + (r.run qs).releases i qs' := by
  induction qs generalizing r with
  | nil => exact (Nat.zero_add _).symm
  | cons q qs ih => rw [List.cons_append, releases, releases, ih, Nat.add_assoc]; rfl

/-- The generation of a slot counts its releases. -/
theorem Sound.generation_run (h : r.Sound) (hslot : r.slots[i]? = some slot) (qs : List Request) :
    ∃ slot', (r.run qs).slots[i]? = some slot'
      ∧ slot'.generation = slot.generation + UInt16.ofNat (r.releases i qs) := by
  induction qs generalizing r slot with
  | nil => exact ⟨slot, hslot, (UInt16.add_zero _).symm⟩
  | cons q qs ih =>
    obtain ⟨slot₁, hslot₁, hgeneration₁⟩ := h.generation_after hslot q
    obtain ⟨slot₂, hslot₂, hgeneration₂⟩ := ih (h.after q) hslot₁
    exact ⟨slot₂, hslot₂, by rw [hgeneration₂, hgeneration₁, releases, UInt16.ofNat_add, UInt16.add_assoc]⟩

/-- A root that is not released has the value that was put under it last. -/
theorem Sound.get?_run (h : r.Sound) (hget : r.get? id = some v) {qs : List Request} (hqs : .disown id ∉ qs) :
    (r.run qs).get? id = some (lastStored id v qs) := by
  induction qs generalizing r v with
  | nil => exact hget
  | cons q qs ih =>
    rw [List.mem_cons, not_or] at hqs
    exact ih (h.after q) (h.get?_after hget fun heq => hqs.1 heq.symm) hqs.2

/-- A root that was released is dead as long as the generations of its slot do not come round. -/
theorem Sound.get?_run_released (h : r.Sound) (hget : r.get? id = some v) {qs : List Request}
    (hqs : .disown id ∈ qs) (hfew : r.releases id.cell.index.toNat qs < generations) : (r.run qs).get? id = none := by
  obtain ⟨slot', hslot', hgeneration⟩ := h.generation_run (get?_eq_some.mp hget) qs
  refine get?_eq_none_of_generation hslot' ?_
  -- The first release of the root is one of its slot.
  obtain ⟨before, behind, rfl, hbefore⟩ := List.eq_append_cons_of_mem hqs
  have hlive := h.get?_run hget hbefore
  have hpos : 0 < r.releases id.cell.index.toNat (before ++ .disown id :: behind) := by
    rw [releases_append, releases, releasesBy, if_pos ⟨rfl, by rw [hlive]; rfl⟩]
    omega
  rw [hgeneration]
  intro heq
  have hzero := (UInt16.add_eq_left).mp heq
  have hmod := congrArg UInt16.toNat hzero
  rw [UInt16.toNat_ofNat_of_lt' hfew] at hmod
  exact Nat.ne_of_gt hpos hmod

/-- Whatever went before, the name of a new root is not that of a live one. The root has the value that was put under
it last until it is released. From then on nothing is found under the name, and nothing can be put under it or released
through it, as long as its slot is released fewer times than there are generations. -/
theorem root_until_released {history : List Request} {r : Roots} (hadd : (empty.run history).add v = (r, id))
    (hsize : (empty.run history).slots.size < UInt32.size) :
    (empty.run history).get? id = none
      ∧ (∀ qs, .disown id ∉ qs → (r.run qs).get? id = some (lastStored id v qs))
      ∧ ∀ qs, .disown id ∈ qs → r.releases id.cell.index.toNat qs < generations →
        (r.run qs).get? id = none ∧ (∀ w, (r.run qs).set id w = (r.run qs, false))
          ∧ (r.run qs).remove id = (r.run qs, false) := by
  have hsound := sound_empty.run history
  obtain ⟨hfresh, hget⟩ := hsound.get?_add hsize v
  have hsound' := hsound.add v
  rw [hadd] at hfresh hget hsound'
  refine ⟨hfresh, fun qs hqs => hsound'.get?_run hget hqs, fun qs hqs hfew => ?_⟩
  have hdead := hsound'.get?_run_released hget hqs hfew
  obtain ⟨hset, hremove⟩ := refused_of_get?_eq_none hdead
  exact ⟨hdead, hset, hremove⟩

/-- The first root is released, and another one gets its slot. -/
theorem root_until_released_reused :
    (empty.run []).add .null = (⟨#[⟨0, some .null⟩], #[]⟩, ⟨⟨0, 0⟩⟩) ∧ (empty.run []).slots.size < UInt32.size
      ∧ (run ⟨#[⟨0, some .null⟩], #[]⟩ [.disown ⟨⟨0, 0⟩⟩, .own (.boolean true)]).get? ⟨⟨0, 0⟩⟩ = none :=
  have hadd : (empty.run []).add .null = (⟨#[⟨0, some .null⟩], #[]⟩, ⟨⟨0, 0⟩⟩) := rfl
  have hsize : (empty.run []).slots.size < UInt32.size := by decide
  ⟨hadd, hsize, ((root_until_released hadd hsize).2.2 _ List.mem_cons_self (by decide)).1⟩

/-- A root is made and released, by rising generations of the first slot. -/
def wearing : Nat → List Request
  | 0 => []
  | n + 1 => wearing n ++ [.own .null, .disown ⟨⟨0, UInt16.ofNat n⟩⟩]

theorem run_wearing (n : Nat) (hn : 0 < n) : empty.run (wearing n) = ⟨#[⟨UInt16.ofNat n, none⟩], #[0]⟩ := by
  induction n with
  | zero => exact absurd hn (Nat.lt_irrefl 0)
  | succ n ih =>
    rw [wearing, run, List.foldl_append]
    rcases Nat.eq_zero_or_pos n with rfl | hpos
    · rfl
    · show List.foldl after (empty.run (wearing n)) _ = _
      rw [ih hpos, UInt16.ofNat_add]
      simp [after, add, remove, get?, slot?, Option.filter]

/-- When the first slot has been released as many times as there are generations, the name of its first root stands for
a new one. -/
theorem released_root_returns :
    (empty.add .null).2 = ⟨⟨0, 0⟩⟩ ∧ (empty.run (wearing 1)).get? ⟨⟨0, 0⟩⟩ = none
      ∧ ((empty.run (wearing generations)).add (.boolean true)).1.get? ⟨⟨0, 0⟩⟩ = some (.boolean true) := by
  refine ⟨rfl, rfl, ?_⟩
  rw [run_wearing generations (by decide)]
  rfl

end Rows

end ScriptEngine.Roots
