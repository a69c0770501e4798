import ScriptEngine.Proofs.Machine.Nests
/-!
What is open along a row of moments.

A moment is nested when its run stands where the code has something open on top of what its innermost call was entered
with, down to the bottom, and all functions at hand are functions of the code (`Moment.Nested`). One step keeps that up,
whatever it does, so it is known of all moments of a session (`Moment.Occurs.nested`). In particular, the scopes that
are open are those of the caller and as many as the code has open at the cursor (`Moment.Nested.scopes_eq`).
-/

namespace ScriptEngine

open Code (Nest Plans Program)

/-- Functions that are functions of the code start where these do. -/
theorem Code.Plans.Describe.entry_of_within {T : Plans} {P : Program} (hT : T.Describe P) {entry : Payload}
    (h : (Value.function entry).Within (T.Entry P)) : T.Entry P entry.val := by
  refine h.start ?_ ?_
  · exact fun h0 => absurd (hT.one_lt_entry h0) (by decide)
  · exact fun h1 => absurd (hT.one_lt_entry h1) (by decide)

/-- What waits holds functions that start at some offsets only. -/
def Waiting.Within {W : Type} (S : Nat → Prop) : Waiting W → Prop
  | run _ _ _ _ => True
  | execution _ receiver | call _ receiver => receiver.Within S
  | action next => ∀ n r, n.Within S → Result.Within S r → (next n r).Honest S (Value.Within S)

namespace Machine

variable {W : Type} {T : Plans} {P : Program} {E : Nesting} {N : Nest} {K : List (Waiting W)} {m n : Machine W}
  {c : Cursor} {env : Embedding W}

/-- A step of a run, after the collection that may come first. -/
theorem Stood.step (h : Stood T P m c E N) (hentered : E.Entered T P K) (hT : T.Describe P)
    (hprogram : m.program.PartOf P) (hwithin : m.Within (T.Entry P)) (env : Embedding W) :
    Unfolds T P K (Machine.advance env c m.collectIfNeeded)
      ∧ (leftBy (Machine.advance env c m.collectIfNeeded)).Within (T.Entry P)
      ∧ ∀ step m', Machine.advance env c m.collectIfNeeded = .ok step m' → StepWithin (T.Entry P) step := by
  have hcollected := h.of_nesting (nesting_collectIfNeeded m)
  have hsame : m.collectIfNeeded.program.PartOf P := by rwa [program_collectIfNeeded]
  exact ⟨hcollected.advance hentered hT hsame hwithin.collectIfNeeded env,
    hwithin.collectIfNeeded.advance env c fun _ _ _ _ hread hv => hcollected.functionBack hT hread hv⟩

/-! ## Starts and ends -/

theorem nesting_enterExecution (m : Machine W) (receiver : Value) (args : List Value) :
    (m.enterExecution receiver args).nesting = m.nesting.call none m.stack.size :=
  nesting_pushFrame { m with depth := m.depth + 1 } none m.stack.size receiver

theorem sized_depths (m : Machine W) : m.nesting.Sized m.depths :=
  ⟨(length_returns m).symm, rfl, (length_loops m).symm⟩

/-- An execution that started with some stacks leaves them when it ends. -/
theorem nesting_leaveExecution {start : Depths} (hstart : E.Sized start) (hbelow : E.Below m.nesting)
    (receiver : Value) (result : Except Error Value) : (m.leaveExecution start receiver result).1.nesting = E := by
  obtain ⟨trace, interrupted, hend, -⟩ := leaveExecution_eq m start receiver result
  have hreturns : (m.frames.shrink start.calls).toList.reverse.map Frame.bare = E.returns :=
    hstart.calls ▸ reverse_shrink Frame.bare hbelow.returns
  have hloops : (m.loops.shrink start.loops).toList.reverse = E.loops := by
    have hsuffix : E.loops <:+ m.loops.toList.reverse.map id := by
      rw [List.map_id]
      exact hbelow.loops
    have hlist := reverse_shrink id hsuffix
    rwa [List.map_id, ← hstart.loops] at hlist
  have hscopes : (m.scopes.shrink start.scopes).size = E.scopes := by
    rw [Array.size_shrink, hstart.scopes]
    exact Nat.min_eq_left hbelow.scopes
  rw [hend]
  show (⟨(m.frames.shrink start.calls).toList.reverse.map Frame.bare, (m.scopes.shrink start.scopes).size,
    (m.loops.shrink start.loops).toList.reverse⟩ : Nesting) = E
  rw [hreturns, hloops, hscopes]

theorem nesting_leaveHost {site : Option Nat} {slot : Nat} (h : m.nesting = E.call site slot) :
    m.leaveHost.nesting = E := by
  have hscopes : m.leaveHost.scopes = m.scopes := by
    unfold leaveHost
    split <;> rfl
  have hreturns : m.skeleton.returns = _ := congrArg Nesting.returns h
  rw [nesting, skeleton_leaveHost, hscopes]
  show (⟨m.skeleton.returns.tail, m.nesting.scopes, m.nesting.loops⟩ : Nesting) = E
  rw [hreturns, h]
  rfl

end Machine

namespace Moment

open Machine (advance callHost StepWithin)

variable {W : Type} {env : Embedding W} {M M' : Moment W} {T : Plans} {P : Program}

/-- What goes on stands on what waits for it, and knows functions of the code only. -/
def NowNested (T : Plans) (P : Program) : Moment W → Prop
  | going (.running m c _) K => m.Within (T.Entry P) ∧ ∃ E N, E.Entered T P K ∧ m.Stood T P c E N
  | going (.execution m start receiver args) K => m.nesting.Awaited T P K ∧ m.Within (T.Entry P)
    ∧ T.Startable P start ∧ receiver.Within (T.Entry P) ∧ Values.Within (T.Entry P) args
  | going (.call m callee receiver args) K => m.nesting.Awaited T P K ∧ m.Within (T.Entry P)
    ∧ callee.Within (T.Entry P) ∧ receiver.Within (T.Entry P) ∧ Values.Within (T.Entry P) args
  | going (.action m a) K => m.nesting.Awaited T P K ∧ a.Honest (T.Entry P) (Value.Within (T.Entry P))
  | ended m r K => (m.nesting.Awaited T P K ∨ Nesting.Over T P m.nesting K) ∧ m.Within (T.Entry P)
    ∧ Result.Within (T.Entry P) r

/-- What goes on stands on what waits for it, and all functions at hand are functions of the code. -/
structure Nested (T : Plans) (P : Program) (M : Moment W) : Prop where
  now : M.NowNested T P
  waiting : ∀ w ∈ M.waiting, w.Within (T.Entry P)

theorem Nested.next (h : M.Nested T P) (hnow : M'.NowNested T P)
    (hwaiting : ∀ w ∈ M'.waiting, w ∈ M.waiting ∨ w.Within (T.Entry P)) : M'.Nested T P :=
  ⟨hnow, fun w hw => (hwaiting w hw).elim (h.waiting w) id⟩

theorem Next.nested (henv : env.Steady) (hT : T.Describe P) (h : Next env M M') (ht : M.Tidy) (hM : M.Nested T P)
    (hpart : M'.machine.program.PartOf P) : M'.Nested T P := by
  have hprogram : M.machine.program.PartOf P := (h.grows henv ht).1.partOf.trans hpart
  have hpush {w : Waiting W} {K : List (Waiting W)} (hw : w.Within (T.Entry P)) :
      ∀ w' ∈ w :: K, w' ∈ K ∨ w'.Within (T.Entry P) := by
    intro w' hw'
    rcases List.mem_cons.mp hw' with rfl | hw'
    · exact .inr hw
    · exact .inl hw'
  have hpop {w : Waiting W} {K : List (Waiting W)} : ∀ w' ∈ K, w' ∈ w :: K ∨ w'.Within (T.Entry P) :=
    fun w' hw' => .inl (List.mem_cons_of_mem _ hw')
  cases h with
  | stopped hup =>
    obtain ⟨hwithin, E, N, hentered, hstood⟩ := hM.now
    exact hM.next ⟨.inr (hentered.over hstood.below), hwithin, Result.within_error _⟩ fun w hw => .inl hw
  | @failed m m' K c entries e hgo hadvance =>
    obtain ⟨hwithin, E, N, hentered, hstood⟩ := hM.now
    obtain ⟨hunfolds, hleft, -⟩ := hstood.step hentered hT hprogram hwithin env
    rw [hadvance] at hunfolds hleft
    refine hM.next ⟨.inr ?_, hleft.noteFailure c.offset e, Result.within_error e⟩ fun w hw => .inl hw
    rw [Machine.nesting_noteFailure]
    exact hunfolds
  | @finished m m' K c entries v hgo hadvance =>
    obtain ⟨hwithin, E, N, hentered, hstood⟩ := hM.now
    obtain ⟨hunfolds, hleft, hstep⟩ := hstood.step hentered hT hprogram hwithin env
    rw [hadvance] at hunfolds hleft
    exact hM.next ⟨.inr hunfolds, hleft, Result.within_ok (hstep _ _ hadvance)⟩ fun w hw => .inl hw
  | @goOn m m' K c c' entries hgo hadvance =>
    obtain ⟨hwithin, E, N, hentered, hstood⟩ := hM.now
    obtain ⟨hunfolds, hleft, -⟩ := hstood.step hentered hT hprogram hwithin env
    rw [hadvance] at hunfolds hleft
    exact hM.next ⟨hleft, hunfolds⟩ fun w hw => .inl hw
  | @host m m' K c c' entries callee receiver args slot hgo hadvance =>
    obtain ⟨hwithin, E, N, hentered, hstood⟩ := hM.now
    obtain ⟨hunfolds, hleft, hstep⟩ := hstood.step hentered hT hprogram hwithin env
    rw [hadvance] at hunfolds hleft
    obtain ⟨-, hreceiver, hargs⟩ := hstep _ _ hadvance
    exact hM.next ⟨hunfolds _ _ _, Machine.honest_callHost henv hleft hreceiver hargs⟩ (hpush trivial)
  | @resumed m K offset slot c entries v =>
    obtain ⟨hnesting, hwithin, hresult⟩ := hM.now
    rcases hnesting with hawaited | ⟨_, _, _, _, hwaits, -⟩
    · generalize hm : m.nesting = G at hawaited
      cases hawaited with
      | run hentered hfinds hinside =>
        refine hM.next ⟨hwithin.leaveHost.putResult slot (hresult v rfl), _, _, hentered, hfinds, hinside, ?_⟩ hpop
        exact Machine.nesting_leaveHost hm
    · cases hwaits
  | @hostFailed m K offset slot c entries e =>
    obtain ⟨hnesting, hwithin, -⟩ := hM.now
    rcases hnesting with hawaited | ⟨_, _, _, _, hwaits, -⟩
    · generalize hm : m.nesting = G at hawaited
      cases hawaited with
      | run hentered hfinds hinside =>
        refine hM.next ⟨.inr ?_, hwithin.leaveHost.noteFailure offset e, Result.within_error e⟩ hpop
        rw [Machine.nesting_noteFailure, Machine.nesting_leaveHost hm]
        exact hentered.over (Nesting.below_plus _ _ _ _)
    · cases hwaits
  | @unloaded m K start receiver args e hload =>
    obtain ⟨hawaited, hwithin, -, hreceiver, hargs⟩ := hM.now
    refine hM.next ⟨.inr ?_, hwithin.enterExecution hreceiver hargs, Result.within_error e⟩ (hpush hwithin.receiver)
    rw [Machine.nesting_enterExecution]
    exact ⟨_, _, _, _, rfl, hawaited, Machine.sized_depths m, Nesting.below_call _ _ _⟩
  | @enter m K start receiver args c hload =>
    obtain ⟨hawaited, hwithin, hstart, hreceiver, hargs⟩ := hM.now
    refine hM.next ⟨hwithin.enterExecution hreceiver hargs, m.nesting.call none m.stack.size, .entry,
      .execution hawaited (Machine.sized_depths m), hT.load_start hprogram hstart hload, ?_, ?_⟩ (hpush hwithin.receiver)
    · exact fun r hr => absurd hr List.not_mem_nil
    · exact Machine.nesting_enterExecution m receiver args
  | @left m K r start receiver =>
    obtain ⟨hnesting, hwithin, hresult⟩ := hM.now
    have hreceiver : receiver.Within (T.Entry P) := hM.waiting _ List.mem_cons_self
    rcases hnesting with hawaited | ⟨_, _, _, E, hwaits, hawaited, hsized, hbelow⟩
    · generalize m.nesting = G at hawaited
      cases hawaited
    · cases hwaits
      refine hM.next ⟨.inl ?_, hwithin.leaveExecution start hreceiver r, ?_⟩ hpop
      · rwa [Machine.nesting_leaveExecution hsized hbelow]
      · obtain ⟨_, _, -, hends⟩ := Machine.leaveExecution_eq m start receiver r
        rcases hends with hends | hends
        · rw [hends]
          exact hresult
        · rw [hends]
          exact Result.within_ok Value.within_undefined
  | function =>
    obtain ⟨hawaited, hwithin, hcallee, hreceiver, hargs⟩ := hM.now
    exact hM.next ⟨hawaited, hwithin, .inl (hT.entry_of_within hcallee), hreceiver, hargs⟩ fun w hw => .inl hw
  | @outside m K callee receiver args h =>
    obtain ⟨hawaited, hwithin, hcallee, hreceiver, hargs⟩ := hM.now
    refine hM.next ⟨.call hawaited, ?_⟩ (hpush hwithin.receiver)
    exact Machine.honest_callHost henv (hwithin.enterHostCall hcallee hreceiver hargs) hreceiver hargs
  | uncallable h hcode =>
    obtain ⟨hawaited, hwithin, -⟩ := hM.now
    exact hM.next ⟨.inl hawaited, hwithin, Result.within_error _⟩ fun w hw => .inl hw
  | @outsideLeft m K r size receiver =>
    obtain ⟨hnesting, hwithin, hresult⟩ := hM.now
    have hreceiver : receiver.Within (T.Entry P) := hM.waiting _ List.mem_cons_self
    rcases hnesting with hawaited | ⟨_, _, _, _, hwaits, -⟩
    · generalize hm : m.nesting = G at hawaited
      cases hawaited with
      | call hawaited =>
        subst hm
        exact hM.next ⟨.inl hawaited, hwithin.leaveHostCall size hreceiver, hresult⟩ hpop
    · cases hwaits
  | @done m m' K r =>
    obtain ⟨hawaited, hhonest⟩ := hM.now
    have htidy : m'.Onward m := ht.now
    rw [← Machine.nesting_of_skeleton htidy.toKept.skeleton] at hawaited
    exact hM.next ⟨.inl hawaited, hhonest⟩ fun w hw => .inl hw
  | code =>
    obtain ⟨hawaited, ⟨hwithin, -, hreceiver, hargs⟩, hnext⟩ := hM.now
    obtain ⟨unit, hunit⟩ := ht.now.2.1
    rw [← Machine.nesting_of_skeleton ht.now.1.toKept.skeleton] at hawaited
    exact hM.next ⟨.action hawaited, hwithin, .inr ⟨unit, hunit.of_partOf hpart⟩, hreceiver, hargs⟩ (hpush hnext)
  | value =>
    obtain ⟨hawaited, ⟨hwithin, hcallee, hreceiver, hargs⟩, hnext⟩ := hM.now
    rw [← Machine.nesting_of_skeleton ht.now.1.toKept.skeleton] at hawaited
    exact hM.next ⟨.action hawaited, hwithin, hcallee, hreceiver, hargs⟩ (hpush hnext)
  | @answered m K r next =>
    obtain ⟨hnesting, hwithin, hresult⟩ := hM.now
    have hnext := hM.waiting _ List.mem_cons_self
    rcases hnesting with hawaited | ⟨_, _, _, _, hwaits, -⟩
    · generalize hm : m.nesting = G at hawaited
      cases hawaited with
      | action hawaited =>
        subst hm
        exact hM.next ⟨hawaited, hnext m r hwithin hresult⟩ hpop
    · cases hwaits

theorem Soon.nested (henv : env.Steady) (hT : T.Describe P) (h : Soon env M M') (ht : M.Tidy) (hM : M.Nested T P)
    (hpart : M'.machine.program.PartOf P) : M'.Nested T P := by
  rcases h with hnext | ⟨m, c, entries, K⟩
  · exact hnext.nested henv hT ht hM hpart
  · obtain ⟨hwithin, E, N, hentered, hstood⟩ := hM.now
    have hup : m.interrupt.Within (T.Entry P) :=
      hwithin.change (g := Machine.interrupt) (fun _ _ => rfl) ⟨rfl, rfl, rfl⟩
    exact hM.next ⟨hup, E, N, hentered, hstood.of_nesting rfl⟩ fun w hw => .inl hw

theorem Later.nested (henv : env.Steady) (hT : T.Describe P) (h : Later env M M') (ht : M.Tidy) (hM : M.Nested T P)
    (hpart : M'.machine.program.PartOf P) : M'.Nested T P := by
  induction h with
  | refl => exact hM
  | tail hlater hsoon ih =>
    have htidy := (Later.grows henv hlater ht).2
    exact hsoon.nested henv hT htidy (ih ((hsoon.grows henv htidy).1.partOf.trans hpart)) hpart

/-- All moments of a session are nested. -/
theorem Occurs.nested (h : M.Occurs env) (henv : env.Steady) (hT : T.Describe P)
    (hpart : M.machine.program.PartOf P) : M.Nested T P := by
  obtain ⟨m, a, hopens, hM⟩ := h
  have hopen : (going (.action m a) []).Tidy := ⟨hopens.tidy, fun w hw => absurd hw List.not_mem_nil⟩
  exact Later.nested henv hT hM hopen ⟨⟨.bottom _, hopens.honest _⟩, fun w hw => absurd hw List.not_mem_nil⟩ hpart

/-- The scopes that are open are those of the caller, and as many as the code has open at the cursor. -/
theorem Nested.scopes_eq {m : Machine W} {c : Cursor} {entries : List Depths} {K : List (Waiting W)} {i : Nat}
    (h : (going (.running m c entries) K).Nested T P) (hT : T.Describe P) (hi : i < (T c.code).items.length)
    (hpos : c.pos = (T c.code).place i) :
    ∃ frame, m.frames.back? = some frame ∧ m.scopes.size = frame.scopes + ((T c.code).nests i).scopes := by
  obtain ⟨-, E, N, hentered, hstood⟩ := h.now
  obtain ⟨call, callers, hcall, hscopes, -⟩ := hentered.exists_call
  obtain ⟨frame, hback, rfl⟩ := Machine.back_of_returns ((congrArg Nesting.returns hstood.nesting).trans hcall)
  refine ⟨frame, hback, ?_⟩
  have hof := hT.of_has hstood.finds.has
  have hN : N = (T c.code).nests i := by
    rcases hstood.finds.here with ⟨hzero, -⟩ | ⟨j, hj, hplace, rfl⟩
    · have hbehind := hof.placed.headerSize_lt_place hi
      omega
    · rw [hof.placed.stands.place_inj (Nat.le_of_lt hi) (Nat.le_of_lt hj) (hpos.symm.trans hplace)]
  have hsize : m.scopes.size = E.scopes + N.scopes := congrArg Nesting.scopes hstood.nesting
  rw [hsize, hN, ← hscopes]
  rfl

end Moment

end ScriptEngine
