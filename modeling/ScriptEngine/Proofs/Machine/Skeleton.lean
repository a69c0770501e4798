import ScriptEngine.Proofs.Code.Charts
import ScriptEngine.Proofs.Machine.Trades
/-!
The shape of the stacks.

A `Skeleton` is what the stacks of a machine are without the values on them: collections and all work on the
heap leave it as it is. `Skeleton.plus` puts a level of the code on top of the skeleton that a call was
entered with. `Untouched` says that below some depths nothing happened, and `Spared` that nothing but
collections did, which change where strings are.
-/

namespace ScriptEngine

open Code (Chart Charts Level Round)

/-- What a call goes back to, without the values. -/
structure Return where
  callSite : Option Nat
  scopes : Nat
  loops : Nat
  slot : Nat

/-- What the stacks are like without the values on them; what is on top comes first. -/
structure Skeleton where
  values : Nat
  returns : List Return
  pending : List Nat
  scopes : Nat
  loops : List LoopFrame

/-- A frame without its receiver. -/
def Frame.bare (f : Frame) : Return :=
  ⟨f.callSite, f.scopes, f.loops, f.resultSlot⟩

/-- The sizes of stacks with a level on top of some sizes. -/
def Depths.plus (d : Depths) (L : Level) : Depths where
  data := d.data + L.height
  calls := d.calls
  args := d.args + L.pending.length
  scopes := d.scopes + L.scopes
  loops := d.loops + L.loops.length

namespace Skeleton

/-- The sizes of the stacks. -/
def depths (E : Skeleton) : Depths :=
  ⟨E.values, E.returns.length, E.pending.length, E.scopes, E.loops.length⟩

/-- A loop of a unit that starts at an offset, in a call that was entered with some scopes. -/
def round (s : Chart) (base scopes : Nat) (r : Round) : LoopFrame :=
  ⟨scopes + r.scopes, base + s.place r.exit, base + s.place r.again⟩

/-- A level of a unit that starts at an offset, on top of what a call was entered with. -/
def plus (E : Skeleton) (s : Chart) (base : Nat) (L : Level) : Skeleton where
  values := E.values + L.height
  returns := E.returns
  pending := L.pending.map (E.values + ·) ++ E.pending
  scopes := E.scopes + L.scopes
  loops := L.loops.map (round s base E.scopes) ++ E.loops

theorem depths_plus (E : Skeleton) (s : Chart) (base : Nat) (L : Level) :
    (E.plus s base L).depths = E.depths.plus L := by
  simp [plus, depths, Depths.plus, Nat.add_comm]

theorem plus_entry (E : Skeleton) (s : Chart) (base : Nat) : E.plus s base .entry = E := rfl

end Skeleton

/-- The sizes of stacks that have everything that others have. -/
structure Depths.Le (d d' : Depths) : Prop where
  data : d.data ≤ d'.data
  calls : d.calls ≤ d'.calls
  args : d.args ≤ d'.args
  scopes : d.scopes ≤ d'.scopes
  loops : d.loops ≤ d'.loops

theorem Depths.Le.refl (d : Depths) : d.Le d :=
  ⟨Nat.le_refl _, Nat.le_refl _, Nat.le_refl _, Nat.le_refl _, Nat.le_refl _⟩

theorem Depths.Le.trans {d d' d'' : Depths} (h : d.Le d') (h' : d'.Le d'') : d.Le d'' :=
  ⟨Nat.le_trans h.data h'.data, Nat.le_trans h.calls h'.calls, Nat.le_trans h.args h'.args,
    Nat.le_trans h.scopes h'.scopes, Nat.le_trans h.loops h'.loops⟩

namespace Machine

variable {W α β : Type} {m m' m'' : Machine W} {d d' : Depths}

/-- What the stacks are like without the values on them. -/
def skeleton (m : Machine W) : Skeleton where
  values := m.stack.size
  returns := m.frames.toList.reverse.map Frame.bare
  pending := m.pending.toList.reverse.map PendingCall.calleeSlot
  scopes := m.scopes.size
  loops := m.loops.toList.reverse

theorem depths_skeleton (m : Machine W) : m.skeleton.depths = m.depths := by
  simp [skeleton, Skeleton.depths, depths]

theorem skeleton_of_above {n : Nat} (h : Above n m m') : m'.skeleton = { m.skeleton with values := m'.stack.size } := by
  simp only [skeleton, h.frames, h.pending, h.scopes, h.loops]

theorem SameStacks.skeleton (h : m.SameStacks m') : m'.skeleton = m.skeleton := by
  simp only [Machine.skeleton, h.stack, h.frames, h.pending, h.scopes, h.loops]

/-! ## What stays below -/

/-- Below some depths the stacks are the same. -/
structure Untouched (d : Depths) (m m' : Machine W) : Prop where
  room : d.Le m'.depths
  stack : m'.stack.take d.data = m.stack.take d.data
  frames : m'.frames.take d.calls = m.frames.take d.calls
  pending : m'.pending.take d.args = m.pending.take d.args
  scopes : m'.scopes.take d.scopes = m.scopes.take d.scopes
  loops : m'.loops.take d.loops = m.loops.take d.loops

theorem Untouched.refl (h : d.Le m.depths) : Untouched d m m :=
  ⟨h, rfl, rfl, rfl, rfl, rfl⟩

theorem Untouched.trans (h : Untouched d m m') (h' : Untouched d m' m'') : Untouched d m m'' :=
  ⟨h'.room, h'.stack.trans h.stack, h'.frames.trans h.frames, h'.pending.trans h.pending,
    h'.scopes.trans h.scopes, h'.loops.trans h.loops⟩

theorem Above.untouched {n : Nat} (h : Above n m m') (hd : d.Le m.depths) (hn : d.data ≤ n) : Untouched d m m' := by
  refine ⟨⟨Nat.le_trans hn h.room, ?_, ?_, ?_, ?_⟩, (h.mono hn).values, ?_, ?_, ?_, ?_⟩
  · show d.calls ≤ m'.frames.size
    rw [h.frames]
    exact hd.calls
  · show d.args ≤ m'.pending.size
    rw [h.pending]
    exact hd.args
  · show d.scopes ≤ m'.scopes.size
    rw [h.scopes]
    exact hd.scopes
  · show d.loops ≤ m'.loops.size
    rw [h.loops]
    exact hd.loops
  · rw [h.frames]
  · rw [h.pending]
  · rw [h.scopes]
  · rw [h.loops]

theorem SameStacks.untouched (h : m.SameStacks m') (hd : d.Le m.depths) : Untouched d m m' :=
  (h.above (Nat.le_refl _)).untouched hd hd.data

section Arrays

variable {ι : Type} (xs : Array ι) {n k : Nat}

theorem take_push_of_le (x : ι) (h : n ≤ xs.size) : (xs.push x).take n = xs.take n := by
  apply Array.ext'
  simp only [Array.take_eq_extract, Array.toList_extract, Array.toList_push, List.extract_eq_take_drop,
    List.drop_zero, Nat.sub_zero]
  rw [List.take_append_of_le_length (by simpa using h)]

theorem take_pop_of_lt (h : n < xs.size) : xs.pop.take n = xs.take n := by
  apply Array.ext'
  simp [List.dropLast_eq_take, List.take_take]
  omega

theorem take_shrink_of_le (h : n ≤ k) : (xs.shrink k).take n = xs.take n := by
  rw [Array.shrink_eq_take]
  exact take_take_of_le xs h

end Arrays

/-! ## Collections below -/

/-- What collections of machines do to values, one after the other: they change where strings are. -/
inductive Relocation (W : Type) : (Value → Value) → Prop
  | none : Relocation W id
  | collection {f : Value → Value} (hf : Relocation W f) (m : Machine W) (full : Bool) :
    Relocation W (StringHeap.relocate (m.heap.collect m.heldValues full m.options.stringSlack).2.1 ∘ f)

theorem Relocation.comp {f g : Value → Value} (hg : Relocation W g) (hf : Relocation W f) :
    Relocation W (g ∘ f) := by
  induction hg with
  | none => exact hf
  | collection _ m full ih =>
    rw [Function.comp_assoc]
    exact .collection ih m full

/-- Below some depths the stacks are the same with their values changed. -/
structure SparedBy (f : Value → Value) (d : Depths) (m m' : Machine W) : Prop where
  room : d.Le m'.depths
  stack : m'.stack.take d.data = (m.stack.take d.data).map f
  frames : m'.frames.take d.calls = (m.frames.take d.calls).map fun frame => { frame with receiver := f frame.receiver }
  pending : m'.pending.take d.args = (m.pending.take d.args).map fun call => { call with receiver := f call.receiver }
  scopes : m'.scopes.take d.scopes = (m.scopes.take d.scopes).map f
  loops : m'.loops.take d.loops = m.loops.take d.loops

/-- Below some depths nothing happened to the stacks but collections. -/
def Spared (d : Depths) (m m' : Machine W) : Prop :=
  ∃ f, Relocation W f ∧ SparedBy f d m m'

theorem Untouched.spared (h : Untouched d m m') : Spared d m m' := by
  have hframe : (fun frame : Frame => { frame with receiver := id frame.receiver }) = id := rfl
  have hpending : (fun call : PendingCall => { call with receiver := id call.receiver }) = id := rfl
  refine ⟨id, .none, h.room, ?_, ?_, ?_, ?_, h.loops⟩
  · rw [Array.map_id, h.stack]
  · rw [hframe, Array.map_id, h.frames]
  · rw [hpending, Array.map_id, h.pending]
  · rw [Array.map_id, h.scopes]

theorem Spared.refl (h : d.Le m.depths) : Spared d m m :=
  (Untouched.refl h).spared

theorem Spared.trans (h : Spared d m m') (h' : Spared d m' m'') : Spared d m m'' := by
  obtain ⟨f, hf, hm⟩ := h
  obtain ⟨g, hg, hm'⟩ := h'
  refine ⟨g ∘ f, hg.comp hf, hm'.room, ?_, ?_, ?_, ?_, hm'.loops.trans hm.loops⟩
  · rw [hm'.stack, hm.stack, Array.map_map]
  · rw [hm'.frames, hm.frames, Array.map_map]
    rfl
  · rw [hm'.pending, hm.pending, Array.map_map]
    rfl
  · rw [hm'.scopes, hm.scopes, Array.map_map]

/-- What is spared below some depths is spared below smaller ones. -/
theorem Spared.mono (h : Spared d' m m') (hle : d.Le d') : Spared d m m' := by
  obtain ⟨f, hf, hm⟩ := h
  have hmap {ι : Type} {xs ys : Array ι} {g : ι → ι} {k l : Nat} (hxs : xs.take l = (ys.take l).map g) (hkl : k ≤ l) :
      xs.take k = (ys.take k).map g := by
    rw [← take_take_of_le xs hkl, hxs, ← take_take_of_le ys hkl]
    simp [Array.map_extract]
  refine ⟨f, hf, hle.trans hm.room, hmap hm.stack hle.data, hmap hm.frames hle.calls, hmap hm.pending hle.args,
    hmap hm.scopes hle.scopes, ?_⟩
  rw [← take_take_of_le m'.loops hle.loops, hm.loops, take_take_of_le m.loops hle.loops]

theorem Spared.room (h : Spared d m m') : d.Le m'.depths :=
  let ⟨_, _, hm⟩ := h
  hm.room

/-- The machine after a collection. -/
theorem collect_spares (m : Machine W) (full : Bool) (hd : d.Le m.depths) :
    Spared d m (m.collect full).1 ∧ (m.collect full).1.skeleton = m.skeleton := by
  unfold collect
  generalize hcollect : m.heap.collect m.heldValues full m.options.stringSlack = r
  obtain ⟨heap, moves, stats⟩ := r
  dsimp only
  split
  · have hsame : m.SameStacks { m with heap := heap } := ⟨rfl, rfl, rfl, rfl, rfl⟩
    exact ⟨(hsame.untouched hd).spared, rfl⟩
  · have hmoves : moves = (m.heap.collect m.heldValues full m.options.stringSlack).2.1 := by rw [hcollect]
    refine ⟨⟨_, .collection .none m full, ?_, ?_, ?_, ?_, ?_, rfl⟩, ?_⟩
    · simpa [mapHeld, depths] using hd
    · simp [mapHeld, hmoves, Array.map_extract]
    · simp [mapHeld, hmoves, Array.map_extract]
    · simp [mapHeld, hmoves, Array.map_extract]
    · simp [mapHeld, hmoves, Array.map_extract]
    · simp [mapHeld, skeleton, Function.comp_def, Frame.bare]

theorem collectIfNeeded_spares (m : Machine W) (hd : d.Le m.depths) :
    Spared d m m.collectIfNeeded ∧ m.collectIfNeeded.skeleton = m.skeleton := by
  unfold collectIfNeeded
  split
  · exact collect_spares m false hd
  · exact ⟨.refl hd, rfl⟩

end Machine

end ScriptEngine
