import ScriptEngine.Proofs.Machine.Footing
import ScriptEngine.Proofs.Machine.Rows
/-!
The scope of global variables.

The outermost scope stays open whatever a script does: calls and loops were entered inside it, so going back to
them leaves it, and an instruction closes inner scopes only (`Machine.scoped_advance`). With functions outside of the
code that mind the stacks, it is open at all moments of a session (`Moment.Occurs.scoped`).
-/

namespace ScriptEngine

namespace Machine

variable {W α β : Type} {m n : Machine W}

/-- There is a scope, and all calls and loops were entered inside of one. -/
structure Scoped (m : Machine W) : Prop where
  scopes : 0 < m.scopes.size
  frames : ∀ f ∈ m.frames, 0 < f.scopes
  loops : ∀ l ∈ m.loops, 0 < l.scopes

theorem Scoped.of_skeleton (h : m.Scoped) (hskeleton : n.skeleton = m.skeleton) : n.Scoped := by
  have hreturns : n.frames.toList.reverse.map Frame.bare = m.frames.toList.reverse.map Frame.bare :=
    congrArg Skeleton.returns hskeleton
  have hloops : n.loops.toList.reverse = m.loops.toList.reverse := congrArg Skeleton.loops hskeleton
  have hscopes : n.scopes.size = m.scopes.size := congrArg Skeleton.scopes hskeleton
  refine ⟨hscopes ▸ h.scopes, fun f hf => ?_, fun l hl => h.loops l ?_⟩
  · have hmem : f.bare ∈ m.frames.toList.reverse.map Frame.bare := by
      rw [← hreturns]
      exact List.mem_map_of_mem (by simpa using hf)
    obtain ⟨g, hg, hbare⟩ := List.mem_map.mp hmem
    rw [show f.scopes = g.scopes from (congrArg Return.scopes hbare).symm]
    exact h.frames g (by simpa using hg)
  · have hmem : l ∈ m.loops.toList.reverse := by
      rw [← hloops]
      simpa using hl
    simpa using hmem

theorem Scoped.of_same (h : m.Scoped) (hscopes : n.scopes = m.scopes) (hframes : n.frames = m.frames)
    (hloops : n.loops = m.loops) : n.Scoped :=
  ⟨hscopes ▸ h.scopes, hframes ▸ h.frames, hloops ▸ h.loops⟩

/-! ## Work -/

/-- Work that leaves the scope of global variables open. -/
class Scoping (work : Work W α) : Prop where
  keeps : ∀ m : Machine W, m.Scoped → (leftBy (work m)).Scoped

instance scoping_of_aloof (work : Work W α) [Aloof work] : Scoping work :=
  ⟨fun m h => h.of_same (Aloof.scopes m) (Aloof.frames m) (Aloof.loops m)⟩

instance scoping_bind (work : Work W α) (next : α → Work W β) [Scoping work] [∀ a, Scoping (next a)] :
    Scoping (work >>= next) := by
  refine ⟨fun m h => ?_⟩
  have hwork : (leftBy (work m)).Scoped := Scoping.keeps m h
  rw [bind_eq]
  cases hm : work m with
  | ok a n =>
    rw [hm] at hwork
    exact Scoping.keeps n hwork
  | error e n =>
    rw [hm] at hwork
    exact hwork

instance scoping_ite (c : Prop) [Decidable c] (work work' : Work W α) [Scoping work] [Scoping work'] :
    Scoping (if c then work else work') := by
  split <;> infer_instance

/-! ## Scopes, loops and calls -/

instance scoping_openScope : Scoping (openScope : Work W Unit) := by
  have (scope : Value) : Scoping (modify fun m : Machine W => { m with scopes := m.scopes.push scope }) :=
    ⟨fun m h => ⟨by show 0 < (m.scopes.push scope).size; simp, h.frames, h.loops⟩⟩
  unfold openScope
  infer_instance

instance scoping_closeScope : Scoping (closeScope : Work W Unit) := by
  refine ⟨fun m h => ?_⟩
  unfold closeScope
  split
  · exact h
  · refine ⟨?_, h.frames, h.loops⟩
    show 0 < m.scopes.pop.size
    rw [Array.size_pop]
    omega

instance scoping_openLoop (breakTarget continueTarget : Nat) :
    Scoping (openLoop breakTarget continueTarget : Work W Unit) := by
  refine ⟨fun m h => ⟨h.scopes, h.frames, fun l hl => ?_⟩⟩
  rcases Array.mem_push.mp hl with hl | rfl
  · exact h.loops l hl
  · exact h.scopes

theorem mem_of_mem_pop {ι : Type} {xs : Array ι} {x : ι} (h : x ∈ xs.pop) : x ∈ xs := by
  rw [← Array.mem_toList_iff, Array.toList_pop] at h
  exact Array.mem_toList_iff.mp (List.mem_of_mem_dropLast h)

/-- Going back to some scopes. -/
theorem Scoped.shrink (h : m.Scoped) {size : Nat} (hsize : 0 < size) : 0 < (m.scopes.shrink size).size := by
  have hscopes := h.scopes
  rw [Array.size_shrink]
  omega

theorem currentLoop_mem {word : String} {loop : LoopFrame} (h : currentLoop word m = .ok loop n) :
    n = m ∧ loop ∈ m.loops := by
  unfold currentLoop inspect at h
  split at h
  · rename_i found hfound
    cases h
    dsimp only at hfound
    split at hfound
    · cases hfound
    · split at hfound
      · rename_i hback
        cases hfound
        exact ⟨rfl, Array.mem_of_back? hback⟩
      · cases hfound
  · cases h

/-- Work on the innermost loop. -/
theorem scoping_atLoop {word : String} {next : LoopFrame → Work W α}
    (hnext : ∀ m loop, m.Scoped → 0 < loop.scopes → (leftBy (next loop m)).Scoped) :
    Scoping (currentLoop word >>= next) := by
  refine ⟨fun m h => ?_⟩
  have hloop : (leftBy (currentLoop word m)).Scoped := (scoping_of_aloof _).keeps m h
  rw [bind_eq]
  cases hm : currentLoop word m with
  | error e n =>
    rw [hm] at hloop
    exact hloop
  | ok loop n =>
    obtain ⟨rfl, hmem⟩ := currentLoop_mem hm
    exact hnext n loop h (h.loops loop hmem)

instance scoping_breakLoop : Scoping (breakLoop : Work W Flow) := by
  refine scoping_atLoop fun m loop h hloop => ⟨h.shrink hloop, h.frames, fun l hl => h.loops l ?_⟩
  exact mem_of_mem_pop hl

instance scoping_continueLoop : Scoping (continueLoop : Work W Flow) :=
  scoping_atLoop fun _ _ h hloop => ⟨h.shrink hloop, h.frames, h.loops⟩

theorem Scoped.pushFrame (h : m.Scoped) (site : Option Nat) (slot : Nat) (receiver : Value) :
    (m.pushFrame site slot receiver).Scoped := by
  refine ⟨h.scopes, fun f hf => ?_, h.loops⟩
  rcases Array.mem_push.mp hf with hf | rfl
  · exact h.frames f hf
  · exact h.scopes

instance scoping_enterCallee (call : PendingCall) (site pos : Nat) (callee : Value) :
    Scoping (enterCallee call site pos callee : Work W Flow) := by
  refine ⟨fun m h => ?_⟩
  have hframe := h.pushFrame (some site) call.calleeSlot call.receiver
  unfold enterCallee
  split
  · exact hframe.of_same rfl rfl rfl
  · exact hframe
  · exact hframe
  · exact h

instance scoping_callPending (site pos : Nat) : Scoping (callPending site pos : Work W Flow) := by
  rw [callPending_eq_bind]
  infer_instance

theorem Scoped.goBack (h : m.Scoped) {frame : Frame} (hframe : 0 < frame.scopes) : (leftBy (goBack frame m)).Scoped := by
  have hback : ({ m with
      receiver := frame.receiver
      scopes := m.scopes.shrink frame.scopes
      loops := m.loops.shrink frame.loops
      stack := m.stack.shrink (frame.resultSlot + 1) } : Machine W).Scoped :=
    ⟨h.shrink hframe, h.frames, fun l hl => h.loops l (mem_of_mem_shrink hl)⟩
  obtain ⟨receiver, site, scopes, loops, slot⟩ := frame
  cases site with
  | some site => exact hback
  | none =>
    have hfinish : Scoping (do return .finish (← pop) : Work W Flow) := inferInstance
    exact hfinish.keeps _ hback

instance scoping_returnFromCall : Scoping (returnFromCall : Work W Flow) := by
  refine ⟨fun m h => ?_⟩
  rw [returnFromCall_eq_bind, bind_eq]
  unfold takeFrame
  cases hback : m.frames.back? with
  | none => exact h
  | some frame =>
    have hpop : ({ m with frames := m.frames.pop } : Machine W).Scoped :=
      ⟨h.scopes, fun f hf => h.frames f (mem_of_mem_pop hf), h.loops⟩
    exact hpop.goBack (h.frames frame (Array.mem_of_back? hback))

instance scoping_carryOut (env : Embedding W) (c : Cursor) (i : Code.Instr) (firstEnd next : Nat) :
    Scoping (carryOut env c i firstEnd next) := by
  cases i <;> simp only [carryOut] <;> infer_instance

instance scoping_advance (env : Embedding W) (c : Cursor) : Scoping (advance env c) := by
  cases hread : Code.Decoded.read c.code c.pos with
  | instr i firstEnd next =>
    have (flow : Flow) : Scoping (settle c i.op flow : Work W Step) := by
      unfold settle
      split <;> infer_instance
    rw [advance_eq env hread]
    infer_instance
  | _ =>
    unfold advance
    rw [hread]
    infer_instance

/-- An instruction leaves the scope of global variables open, whether it fails or not. -/
theorem Scoped.step (h : m.Scoped) (env : Embedding W) (c : Cursor) :
    (leftBy (advance env c m.collectIfNeeded)).Scoped :=
  Scoping.keeps _ (h.of_skeleton (collectIfNeeded_spares m (Depths.Le.refl _)).2)

theorem Scoped.leaveHost (h : m.Scoped) : m.leaveHost.Scoped := by
  unfold Machine.leaveHost
  split
  · exact ⟨h.scopes, fun f hf => h.frames f (mem_of_mem_pop hf), h.loops⟩
  · exact h

theorem Scoped.leaveExecution (h : m.Scoped) {start : Depths} (hstart : 0 < start.scopes) (receiver : Value)
    (result : Except Error Value) : (m.leaveExecution start receiver result).1.Scoped := by
  obtain ⟨trace, interrupted, hend, -⟩ := leaveExecution_eq m start receiver result
  rw [hend]
  exact ⟨h.shrink hstart, fun f hf => h.frames f (mem_of_mem_shrink hf), fun l hl => h.loops l (mem_of_mem_shrink hl)⟩

theorem scoped_new {o : Options} {output : Output} {world : W} (h : new o output world = .ok m) : m.Scoped := by
  have hinstall : ∀ bs : List Builtin, Scoping (bs.forM setBuiltin : Work W PUnit) := by
    intro bs
    induction bs with
    | nil => exact scoping_of_aloof (pure PUnit.unit)
    | cons b bs ih =>
      have : Still (setBuiltin b : Work W Unit) :=
        still_bind (still_inspect _) fun _ => still_bind (still_onHeap _) fun _ => still_onHeap _
      have := this.aloof
      exact scoping_bind _ _
  unfold new at h
  split at h
  · rename_i n hinstalled
    cases h
    let opened : Machine W := { bare o output world with
      heap := ((bare o output world).heap.newObject).1
      scopes := (bare o output world).scopes.push ((bare o output world).heap.newObject).2 }
    have hopen : opened.Scoped := ⟨by simp [opened], fun f hf => by simp [opened, bare] at hf, fun l hl => by simp [opened, bare] at hl⟩
    have hleft := (hinstall Builtin.globals).keeps _ hopen
    -- all that is done besides setting the built-in functions is to open that scope
    rw [show (Builtin.globals.forM setBuiltin : Work W PUnit) opened = .ok _ _ from hinstalled] at hleft
    exact hleft
  · cases h

end Machine

/-! ## Moments -/

/-- An execution cuts the scopes back to some. -/
def Waiting.Scoped {W : Type} : Waiting W → Prop
  | execution start _ => 0 < start.scopes
  | _ => True

namespace Moment

variable {W : Type} {env : Embedding W} {M M' : Moment W}

/-- The scope of global variables is open, and stays so whatever comes to an end. -/
structure Scoped (M : Moment W) : Prop where
  machine : M.machine.Scoped
  waiting : ∀ w ∈ M.waiting, w.Scoped

theorem Scoped.next (h : M.Scoped) (hmachine : M'.machine.Scoped)
    (hwaiting : ∀ w ∈ M'.waiting, w ∈ M.waiting ∨ w.Scoped) : M'.Scoped :=
  ⟨hmachine, fun w hw => (hwaiting w hw).elim (h.waiting w) id⟩

theorem Next.scoped (h : Next env M M') (ht : M.Tidy) (hM : M.Scoped) : M'.Scoped := by
  have hstep {m : Machine W} {c : Cursor} {r : EStateM.Result Error (Machine W) Machine.Step} (hm : m.Scoped)
      (hadvance : Machine.advance env c m.collectIfNeeded = r) : (leftBy r).Scoped :=
    hadvance ▸ hm.step env c
  have hfailure {m : Machine W} (hm : m.Scoped) (offset : Nat) (e : Error) : (m.noteFailure offset e).Scoped := by
    cases e <;> exact hm.of_same rfl rfl rfl
  have hpush {w : Waiting W} {K : List (Waiting W)} (hw : w.Scoped) : ∀ w' ∈ w :: K, w' ∈ K ∨ w'.Scoped := by
    intro w' hw'
    rcases List.mem_cons.mp hw' with rfl | hw'
    · exact .inr hw
    · exact .inl hw'
  have hpop {w : Waiting W} {K : List (Waiting W)} : ∀ w' ∈ K, w' ∈ w :: K ∨ w'.Scoped :=
    fun w' hw' => .inl (List.mem_cons_of_mem _ hw')
  cases h with
  | stopped hup => exact hM.next hM.machine fun w hw => .inl hw
  | failed hgo hadvance => exact hM.next (hfailure (hstep hM.machine hadvance) _ _) fun w hw => .inl hw
  | finished hgo hadvance | goOn hgo hadvance => exact hM.next (hstep hM.machine hadvance) fun w hw => .inl hw
  | host hgo hadvance => exact hM.next (hstep hM.machine hadvance) (hpush trivial)
  | resumed => exact hM.next (hM.machine.leaveHost.of_same rfl rfl rfl) hpop
  | hostFailed => exact hM.next (hfailure hM.machine.leaveHost _ _) hpop
  | @unloaded m K start receiver args e hload | @enter m K start receiver args c hload =>
    have henter : (m.enterExecution receiver args).Scoped :=
      (hM.machine.pushFrame none m.stack.size receiver).of_same rfl rfl rfl
    exact hM.next henter (hpush hM.machine.scopes)
  | left => exact hM.next (hM.machine.leaveExecution (hM.waiting _ List.mem_cons_self) _ _) hpop
  | function => exact hM.next hM.machine fun w hw => .inl hw
  | outside h => exact hM.next (hM.machine.of_same rfl rfl rfl) (hpush trivial)
  | uncallable h hcode => exact hM.next hM.machine fun w hw => .inl hw
  | outsideLeft => exact hM.next (hM.machine.of_same rfl rfl rfl) hpop
  | done => exact hM.next (hM.machine.of_skeleton ht.now.toKept.skeleton) fun w hw => .inl hw
  | code | value => exact hM.next (hM.machine.of_skeleton ht.now.1.toKept.skeleton) (hpush trivial)
  | answered => exact hM.next hM.machine hpop

theorem Later.scoped (henv : env.Steady) (h : Later env M M') (ht : M.Tidy) (hM : M.Scoped) : M'.Scoped := by
  induction h with
  | refl => exact hM
  | tail hlater hsoon ih =>
    rcases hsoon with hnext | ⟨m, c, entries, K⟩
    · exact hnext.scoped (Later.grows henv hlater ht).2 ih
    · exact ih.next (ih.machine.of_same rfl rfl rfl) fun w hw => .inl hw

/-- At all moments of a session the scope of global variables is open. -/
theorem Occurs.scoped (h : M.Occurs env) (henv : env.Steady) : M.Scoped := by
  obtain ⟨m, a, hopens, hM⟩ := h
  obtain ⟨_, _, _, hnew⟩ := hopens.new
  exact Later.scoped henv hM ⟨hopens.tidy, fun w hw => absurd hw List.not_mem_nil⟩
    ⟨Machine.scoped_new hnew, fun w hw => absurd hw List.not_mem_nil⟩

end Moment

end ScriptEngine
