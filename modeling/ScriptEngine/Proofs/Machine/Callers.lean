import ScriptEngine.Proofs.Machine.PairedRuns
import ScriptEngine.Proofs.Machine.Requests
/-!
Calls that wait.

The frames of a machine are those of the calls that wait, for one execution after the other
(`Moment.Stacked`): within an execution its own calls stand on what it was entered with, and the call of a function
outside of the code stands on top for as long as that function is at work. So when an execution ends, whatever
frames are above what it was entered with are its own.
-/

namespace ScriptEngine

namespace Machine

variable {W : Type} {env : Embedding W} {m n : Machine W}

/-! ## Sites -/

theorem sites_of_skeleton (h : n.skeleton = m.skeleton) : n.sites = m.sites := by
  have hreturns := congrArg (fun E : Skeleton => E.returns.reverse.map Return.callSite) h
  simpa [skeleton, sites, List.map_reverse, Function.comp_def, Frame.bare] using hreturns

theorem length_sites (m : Machine W) : m.sites.length = m.depths.calls := by
  simp [sites, depths]

theorem sites_leaveHost {before : List (Option Nat)} {site : Option Nat} (h : m.sites = before ++ [site]) :
    m.leaveHost.sites = before := by
  have hlast : m.sites.getLast? = m.frames.back?.map Frame.callSite := by
    simp [sites, List.getLast?_map, Array.getLast?_toList]
  rw [h, List.getLast?_concat] at hlast
  unfold leaveHost
  cases hback : m.frames.back? with
  | none =>
    rw [hback] at hlast
    cases hlast
  | some frame =>
    show m.frames.pop.toList.map Frame.callSite = before
    rw [Array.toList_pop, List.map_dropLast]
    show m.sites.dropLast = before
    rw [h, List.dropLast_concat]

/-- An execution takes the frames with it that are above what it was entered with. -/
theorem sites_leaveExecution_of_isPrefix {base : List (Option Nat)} (hbase : base <+: m.sites) {start : Depths}
    (hsize : base.length = start.calls) (receiver : Value) (r : Except Error Value) :
    (m.leaveExecution start receiver r).1.sites = base := by
  obtain ⟨trace, interrupted, hend, -⟩ := leaveExecution_eq m start receiver r
  rw [hend]
  show (m.frames.shrink start.calls).toList.map Frame.callSite = base
  rw [Array.toList_shrink, List.map_take, ← hsize]
  exact (List.prefix_iff_eq_take.mp hbase).symm

instance staysInside_returnFromCall : StaysInside (returnFromCall : Work W Flow) := by
  have hback (frame : Frame) : StaysInside (match frame.callSite with
      | some site => pure (.jump (site + 1))
      | none => do return .finish (← pop) : Work W Flow) := by
    split <;> infer_instance
  have (frame : Frame) : StaysInside (goBack frame : Work W Flow) := by
    have := hback frame
    unfold goBack
    infer_instance
  rw [returnFromCall_eq_bind]
  infer_instance

/-- The call of a function outside of the code is on top while that function is at work. -/
theorem sites_host {c c' : Cursor} {callee receiver : Value} {args : List Value} {slot : Nat}
    (h : advance env c m = .ok (.host callee receiver args slot c') n) : n.sites = m.sites ++ [some c.offset] := by
  cases hread : Code.Decoded.read c.code c.pos with
  | instr i firstEnd next =>
    rw [advance_eq env hread, bind_eq] at h
    have hflow : ∃ pos, carryOut env c i firstEnd next m = .ok (.host callee receiver args slot pos) n := by
      cases hwork : carryOut env c i firstEnd next m with
      | error e l =>
        rw [hwork] at h
        cases h
      | ok flow l =>
        rw [hwork] at h
        cases flow with
        | goOn pos | finish v => cases h
        | jump offset =>
          simp only [settle, bind_eq, inspect] at h
          cases hgo : c.goTo l.program offset i.op with
          | ok c₁ =>
            rw [hgo] at h
            cases h
          | error e =>
            rw [hgo] at h
            cases h
        | host callee' receiver' args' slot' pos =>
          cases h
          exact ⟨pos, rfl⟩
    obtain ⟨pos, hwork⟩ := hflow
    cases hi : i.isCall with
    | false => exact absurd hwork ((staysInside_carryOut env c hi firstEnd next).ne_host m n callee receiver args slot pos)
    | true =>
      cases i with
      | call =>
        have hadds := addsSite_callPending c.offset next m
        rw [show callPending c.offset next m = .ok (.host callee receiver args slot pos) n from hwork] at hadds
        exact hadds
      | «return» => exact absurd hwork (staysInside_returnFromCall.ne_host m n callee receiver args slot pos)
      | _ => cases hi
  | _ =>
    unfold advance at h
    rw [hread] at h
    cases h

end Machine

/-! ## What waits -/

open Machine (InExecution)

mutual

/-- What waits for a run, in an execution that was entered with some sites. -/
inductive Waiting.Above {W : Type} (outermost : List (Option Nat)) : List (Option Nat) → List (Waiting W) → Prop
  | outermost : Above outermost outermost []
  | execution {base : List (Option Nat)} {start : Depths} {receiver : Value}
    {next : Machine W → Except Error Value → Action W Value} {K : List (Waiting W)} (hbase : outermost <+: base)
    (hsize : base.length = start.calls) (hK : Stacked outermost base K) :
    Above outermost base (.execution start receiver :: .action next :: K)

/-- What waits for a function outside of the code, with the sites that there are. -/
inductive Waiting.Stacked {W : Type} (outermost : List (Option Nat)) : List (Option Nat) → List (Waiting W) → Prop
  | run {before base : List (Option Nat)} {offset slot : Nat} {c : Cursor} {entries : List Depths}
    {K : List (Waiting W)} (hbefore : InExecution base before) (hK : Above outermost base K) :
    Stacked outermost (before ++ [some offset]) (.run offset slot c entries :: K)
  | call {sites : List (Option Nat)} {size : Nat} {receiver : Value}
    {next : Machine W → Except Error Value → Action W Value} {K : List (Waiting W)} (hK : Stacked outermost sites K) :
    Stacked outermost sites (.call size receiver :: .action next :: K)

end

namespace Waiting

variable {W : Type} {outermost base sites : List (Option Nat)} {K : List (Waiting W)}

theorem Above.isPrefix (h : Above outermost base K) : outermost <+: base := by
  cases h with
  | outermost => exact List.prefix_rfl
  | execution hbase hsize hK => exact hbase

theorem Stacked.isPrefix : ∀ {sites : List (Option Nat)} {K : List (Waiting W)}, Stacked outermost sites K →
    outermost <+: sites
  | _, _, .run hbefore hK => (hK.isPrefix.trans hbefore.base_isPrefix).trans (List.prefix_append _ _)
  | _, _, .call hK => hK.isPrefix

theorem Stacked.ne_nil (h : Stacked outermost sites K) : K ≠ [] := by
  cases h <;> exact List.cons_ne_nil _ _

end Waiting

namespace Moment

variable {W : Type} {env : Embedding W} {M M' : Moment W} {outermost : List (Option Nat)}

/-- The frames are those of the calls that wait. -/
def Stacked (outermost : List (Option Nat)) : Moment W → Prop
  | going (.running m _ _) K => ∃ base, InExecution base m.sites ∧ Waiting.Above outermost base K
  | going (.execution m _ _ _) K | going (.call m _ _ _) K =>
    ∃ next K', K = .action next :: K' ∧ Waiting.Stacked outermost m.sites K'
  | going (.action m _) K => Waiting.Stacked outermost m.sites K
  | ended m _ K =>
    (∃ base, base <+: m.sites ∧ Waiting.Above outermost base K)
      ∨ (∃ next K', K = .action next :: K' ∧ Waiting.Stacked outermost m.sites K')
      ∨ Waiting.Stacked outermost m.sites K

section Over

variable {m : Machine W} {r : Except Error Value} {K : List (Waiting W)}

theorem Stacked.nil (h : (ended m r []).Stacked outermost) : outermost <+: m.sites := by
  rcases h with ⟨base, hbase, hK⟩ | ⟨next, K', hK, -⟩ | hK
  · exact hK.isPrefix.trans hbase
  · cases hK
  · exact absurd rfl hK.ne_nil

/-- The call of a function outside of the code is on top when that function ends. -/
theorem Stacked.run {offset slot : Nat} {c : Cursor} {entries : List Depths}
    (h : (ended m r (.run offset slot c entries :: K)).Stacked outermost) :
    ∃ before base, m.sites = before ++ [some offset] ∧ InExecution base before ∧ Waiting.Above outermost base K := by
  rcases h with ⟨base, -, hK⟩ | ⟨next, K', hK, -⟩ | hK
  · cases hK
  · cases hK
  · generalize hsites : m.sites = sites at hK
    cases hK with
    | @run before base _ _ _ _ _ hbefore hK => exact ⟨before, base, rfl, hbefore, hK⟩

/-- What an execution was entered with is there when it ends. -/
theorem Stacked.execution {start : Depths} {receiver : Value}
    (h : (ended m r (.execution start receiver :: K)).Stacked outermost) :
    ∃ base next K', K = .action next :: K' ∧ base <+: m.sites ∧ base.length = start.calls ∧ outermost <+: base
      ∧ Waiting.Stacked outermost base K' := by
  rcases h with ⟨base, hbase, hK⟩ | ⟨next, K', hK, -⟩ | hK
  · cases hK with
    | execution hprefix hsize hK => exact ⟨base, _, _, rfl, hbase, hsize, hprefix, hK⟩
  · cases hK
  · generalize m.sites = sites at hK
    cases hK

theorem Stacked.call {size : Nat} {receiver : Value} (h : (ended m r (.call size receiver :: K)).Stacked outermost) :
    ∃ next K', K = .action next :: K' ∧ Waiting.Stacked outermost m.sites K' := by
  rcases h with ⟨base, -, hK⟩ | ⟨next, K', hK, -⟩ | hK
  · cases hK
  · cases hK
  · generalize hsites : m.sites = sites at hK
    cases hK with
    | call hK => exact ⟨_, _, rfl, hK⟩

theorem Stacked.action {next : Machine W → Except Error Value → Action W Value}
    (h : (ended m r (.action next :: K)).Stacked outermost) : Waiting.Stacked outermost m.sites K := by
  rcases h with ⟨base, -, hK⟩ | ⟨next', K', hK, hstacked⟩ | hK
  · cases hK
  · cases hK
    exact hstacked
  · generalize m.sites = sites at hK
    cases hK

end Over

/-- A step keeps what its execution was entered with. -/
theorem stacked_step {m : Machine W} {c : Cursor} {r : EStateM.Result Error (Machine W) Machine.Step}
    {base : List (Option Nat)} (hin : InExecution base m.sites) (hadvance : Machine.advance env c m.collectIfNeeded = r) :
    Machine.StepKeepsSites base r := by
  rw [← Machine.sites_collectIfNeeded m] at hin
  exact hadvance ▸ Machine.keepsSites_advance env c hin

/-- One step leaves the frames to those of the calls that wait. -/
theorem Next.stacked (h : Next env M M') (ht : M.Tidy) (hM : M.Stacked outermost) : M'.Stacked outermost := by
  cases h with
  | stopped hup =>
    obtain ⟨base, hin, hK⟩ := hM
    exact .inl ⟨base, hin.base_isPrefix, hK⟩
  | @failed m m' K c entries e hgo hadvance =>
    obtain ⟨base, hin, hK⟩ := hM
    have hkeeps : base <+: m'.sites := stacked_step hin hadvance
    exact .inl ⟨base, (Machine.sites_noteFailure m' c.offset e).symm ▸ hkeeps, hK⟩
  | finished hgo hadvance =>
    obtain ⟨base, hin, hK⟩ := hM
    exact .inl ⟨base, stacked_step hin hadvance, hK⟩
  | goOn hgo hadvance =>
    obtain ⟨base, hin, hK⟩ := hM
    exact ⟨base, stacked_step hin hadvance, hK⟩
  | @host m m' K c c' entries callee receiver args slot hgo hadvance =>
    obtain ⟨base, hin, hK⟩ := hM
    show Waiting.Stacked outermost m'.sites _
    rw [Machine.sites_host hadvance, Machine.sites_collectIfNeeded]
    exact .run hin hK
  | @resumed m K offset slot c entries v =>
    obtain ⟨before, base, hsites, hin, hK⟩ := hM.run
    refine ⟨base, ?_, hK⟩
    show InExecution base m.leaveHost.sites
    rwa [Machine.sites_leaveHost hsites]
  | @hostFailed m K offset slot c entries e =>
    obtain ⟨before, base, hsites, hin, hK⟩ := hM.run
    refine .inl ⟨base, ?_, hK⟩
    rw [Machine.sites_noteFailure, Machine.sites_leaveHost hsites]
    exact hin.base_isPrefix
  | @unloaded m K start receiver args e hload =>
    obtain ⟨next, K', rfl, hK⟩ := hM
    refine .inl ⟨m.sites, ?_, .execution hK.isPrefix (Machine.length_sites m) hK⟩
    rw [Machine.sites_enterExecution]
    exact List.prefix_append _ _
  | @enter m K start receiver args c hload =>
    obtain ⟨next, K', rfl, hK⟩ := hM
    exact ⟨m.sites, ⟨[], Machine.sites_enterExecution m receiver args⟩,
      .execution hK.isPrefix (Machine.length_sites m) hK⟩
  | @left m K r start receiver =>
    obtain ⟨base, next, K', rfl, hbase, hsize, -, hK⟩ := hM.execution
    refine .inr (.inl ⟨next, K', rfl, ?_⟩)
    rwa [Machine.sites_leaveExecution_of_isPrefix hbase hsize]
  | function => exact hM
  | outside houtside =>
    obtain ⟨next, K', rfl, hK⟩ := hM
    exact Waiting.Stacked.call hK
  | uncallable houtside hcode => exact .inr (.inl hM)
  | outsideLeft =>
    obtain ⟨next, K', rfl, hK⟩ := hM.call
    exact .inr (.inl ⟨next, K', rfl, hK⟩)
  | @done m m' K r =>
    refine .inr (.inr ?_)
    rwa [Machine.sites_of_skeleton ht.now.toKept.skeleton]
  | code | value =>
    refine ⟨_, _, rfl, ?_⟩
    rwa [Machine.sites_of_skeleton ht.now.1.toKept.skeleton]
  | answered => exact hM.action

theorem Later.stacked (henv : env.Steady) (h : Later env M M') (ht : M.Tidy) (hM : M.Stacked outermost) :
    M'.Stacked outermost := by
  induction h with
  | refl => exact hM
  | tail hlater hsoon ih =>
    rcases hsoon with hnext | ⟨m, c, entries, K⟩
    · exact hnext.stacked (Later.grows henv hlater ht).2 ih
    · exact ih

end Moment

end ScriptEngine
