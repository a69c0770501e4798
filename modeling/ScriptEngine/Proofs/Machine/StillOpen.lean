import ScriptEngine.Proofs.Machine.Rows
import ScriptEngine.Proofs.Machine.Unwinding
import ScriptEngine.Proofs.Machine.Footing
/-!
What is still open.

Scopes and calls are taken off from the top only. So as long as there are as many of them as there were once, those are
the same, but that collections move what they hold (`Moment.StillOpen.spared`), and a scope that is an object stays that
object (`Machine.Spared.scope`).
-/

namespace ScriptEngine

/-- The sizes of stacks with some calls and some scopes. -/
def Depths.floor (calls scopes : Nat) : Depths :=
  ⟨0, calls, 0, scopes, 0⟩

theorem Depths.floor_le_iff {calls scopes : Nat} {d : Depths} :
    (Depths.floor calls scopes).Le d ↔ calls ≤ d.calls ∧ scopes ≤ d.scopes :=
  ⟨fun h => ⟨h.calls, h.scopes⟩, fun h => ⟨Nat.zero_le _, h.1, Nat.zero_le _, h.2, Nat.zero_le _⟩⟩

namespace Machine

variable {W α β : Type} {m n : Machine W} {calls scopes : Nat}

/-- That many calls and scopes are open. -/
def Holds (m : Machine W) (calls scopes : Nat) : Prop :=
  (Depths.floor calls scopes).Le m.depths

theorem holds_iff : m.Holds calls scopes ↔ calls ≤ m.frames.size ∧ scopes ≤ m.scopes.size :=
  Depths.floor_le_iff

/-- The lowest calls and scopes are the same. -/
def Agrees (calls scopes : Nat) (m n : Machine W) : Prop :=
  n.frames.take calls = m.frames.take calls ∧ n.scopes.take scopes = m.scopes.take scopes

theorem Agrees.spared (h : Agrees calls scopes m n) (hn : n.Holds calls scopes) :
    Spared (Depths.floor calls scopes) m n := by
  refine Untouched.spared ⟨hn, ?_, h.1, ?_, h.2, ?_⟩ <;> simp [Depths.floor]

/-! ## Relocated values -/

theorem Relocation.object {f : Value → Value} (hf : Relocation W f) (id : ObjectId) : f (.object id) = .object id := by
  induction hf with
  | none => rfl
  | collection _ m full ih =>
    rw [Function.comp_apply, ih]
    rfl

theorem getElem?_of_take_eq {ι : Type} {xs ys : Array ι} {size k : Nat} (h : ys.take size = xs.take size) (hk : k < size) :
    ys[k]? = xs[k]? := by
  have hlist := congrArg (fun zs : Array ι => zs.toList[k]?) h
  simpa [Array.take_eq_extract, List.extract_eq_take_drop, List.getElem?_take, hk] using hlist

/-- A scope that is an object stays that object. -/
theorem Spared.scope {d : Depths} (h : Spared d m n) {k : Nat} (hk : k < d.scopes) {id : ObjectId}
    (hid : m.scopes[k]? = some (.object id)) : n.scopes[k]? = some (.object id) := by
  obtain ⟨f, hf, hspared⟩ := h
  have htake : n.scopes.take d.scopes = (m.scopes.map f).take d.scopes := by
    rw [hspared.scopes]
    simp [Array.map_extract]
  rw [getElem?_of_take_eq htake hk, Array.getElem?_map, hid, Option.map_some, hf.object]

/-- A call goes back to where it did. -/
theorem Spared.frame {d : Depths} (h : Spared d m n) {k : Nat} (hk : k < d.calls) :
    (n.frames[k]?).map Frame.bare = (m.frames[k]?).map Frame.bare := by
  obtain ⟨f, hf, hspared⟩ := h
  have htake : n.frames.take d.calls
      = (m.frames.map fun frame => { frame with receiver := f frame.receiver }).take d.calls := by
    rw [hspared.frames]
    simp [Array.map_extract]
  rw [getElem?_of_take_eq htake hk, Array.getElem?_map, Option.map_map]
  rfl

/-! ## Work -/

/-- Work that leaves calls and scopes as they are, as far as they are still there. -/
class Lasting (work : Work W α) : Prop where
  agrees : ∀ {m : Machine W} {calls scopes : Nat}, m.Holds calls scopes → (leftBy (work m)).Holds calls scopes →
    Agrees calls scopes m (leftBy (work m))

instance lasting_of_aloof (work : Work W α) [Aloof work] : Lasting work :=
  ⟨fun _ _ => ⟨by rw [Aloof.frames], by rw [Aloof.scopes]⟩⟩

theorem Aloof.holds (work : Work W α) [Aloof work] (m : Machine W) :
    (leftBy (work m)).Holds calls scopes ↔ m.Holds calls scopes := by
  rw [holds_iff, holds_iff, Aloof.frames, Aloof.scopes]

instance lasting_after (work : Work W α) (next : α → Work W β) [Aloof work] [∀ a, Lasting (next a)] :
    Lasting (work >>= next) := by
  refine ⟨fun {m calls scopes} hm hleft => ?_⟩
  have hscopes : (leftBy (work m)).scopes = m.scopes := Aloof.scopes m
  have hframes : (leftBy (work m)).frames = m.frames := Aloof.frames m
  have hholds : (leftBy (work m)).Holds calls scopes := (Aloof.holds work m).mpr hm
  rw [bind_eq] at hleft ⊢
  generalize work m = r at hscopes hframes hholds hleft ⊢
  cases r with
  | ok a l =>
    obtain ⟨hcalls, hrest⟩ : Agrees calls scopes l (leftBy (next a l)) := Lasting.agrees hholds hleft
    exact ⟨hcalls.trans (congrArg (Array.take · calls) hframes), hrest.trans (congrArg (Array.take · scopes) hscopes)⟩
  | error e l => exact ⟨congrArg (Array.take · calls) hframes, congrArg (Array.take · scopes) hscopes⟩

/-- Work before work that leaves calls and scopes alone. -/
theorem lasting_before (work : Work W α) (next : α → Work W β) [Lasting work] [∀ a, Aloof (next a)] :
    Lasting (work >>= next) := by
  refine ⟨fun {m calls scopes} hm hleft => ?_⟩
  have hwork : (leftBy (work m)).Holds calls scopes → Agrees calls scopes m (leftBy (work m)) := Lasting.agrees hm
  rw [bind_eq] at hleft ⊢
  generalize work m = r at hwork hleft ⊢
  cases r with
  | ok a l =>
    obtain ⟨hcalls, hrest⟩ := hwork ((Aloof.holds (next a) l).mp hleft)
    have hframes : (leftBy (next a l)).frames = l.frames := Aloof.frames l
    have hscopes : (leftBy (next a l)).scopes = l.scopes := Aloof.scopes l
    exact ⟨(congrArg (Array.take · calls) hframes).trans hcalls, (congrArg (Array.take · scopes) hscopes).trans hrest⟩
  | error e l => exact hwork hleft

/-- Scopes and calls that come on top. -/
theorem agrees_push_scope (hm : m.Holds calls scopes) (scope : Value) :
    Agrees calls scopes m { m with scopes := m.scopes.push scope } :=
  ⟨rfl, take_push_of_le m.scopes scope (holds_iff.mp hm).2⟩

theorem agrees_pushFrame (hm : m.Holds calls scopes) (site : Option Nat) (slot : Nat) (receiver : Value) :
    Agrees calls scopes m (m.pushFrame site slot receiver) :=
  ⟨take_push_of_le m.frames _ (holds_iff.mp hm).1, rfl⟩

theorem take_shrink_of_le_size {ι : Type} (xs : Array ι) {size k : Nat} (h : size ≤ (xs.shrink k).size) :
    (xs.shrink k).take size = xs.take size := by
  rw [Array.size_shrink] at h
  exact take_shrink_of_le xs (by omega)

theorem take_pop_of_le_size {ι : Type} (xs : Array ι) {size : Nat} (h : size ≤ xs.pop.size) :
    xs.pop.take size = xs.take size := by
  rw [Array.size_pop] at h
  cases size with
  | zero => simp
  | succ size => exact take_pop_of_lt xs (by omega)

instance lasting_openScope : Lasting (openScope : Work W Unit) := by
  have (scope : Value) : Lasting (modify fun m : Machine W => { m with scopes := m.scopes.push scope }) :=
    ⟨fun hm _ => agrees_push_scope hm scope⟩
  unfold openScope
  infer_instance

instance lasting_closeScope : Lasting (closeScope : Work W Unit) := by
  refine ⟨fun {m _ _} _ hleft => ?_⟩
  unfold closeScope at hleft ⊢
  split
  · exact ⟨rfl, rfl⟩
  · rw [if_neg ‹_›] at hleft
    exact ⟨rfl, take_pop_of_le_size m.scopes (holds_iff.mp hleft).2⟩

instance lasting_openLoop (breakTarget continueTarget : Nat) :
    Lasting (openLoop breakTarget continueTarget : Work W Unit) :=
  ⟨fun _ _ => ⟨rfl, rfl⟩⟩

instance lasting_breakLoop : Lasting (breakLoop : Work W Flow) := by
  have (loop : LoopFrame) : Lasting
      (modify fun m : Machine W => { m with loops := m.loops.pop, scopes := m.scopes.shrink loop.scopes }) :=
    ⟨fun {m _ _} _ hleft => ⟨rfl, take_shrink_of_le_size m.scopes (holds_iff.mp hleft).2⟩⟩
  have (loop : LoopFrame) := lasting_before
    (modify fun m : Machine W => { m with loops := m.loops.pop, scopes := m.scopes.shrink loop.scopes })
    fun _ => (pure (.jump loop.breakTarget) : Work W Flow)
  exact lasting_after _ _

instance lasting_continueLoop : Lasting (continueLoop : Work W Flow) := by
  have (loop : LoopFrame) : Lasting
      (modify fun m : Machine W => { m with scopes := m.scopes.shrink loop.scopes }) :=
    ⟨fun {m _ _} _ hleft => ⟨rfl, take_shrink_of_le_size m.scopes (holds_iff.mp hleft).2⟩⟩
  have (loop : LoopFrame) := lasting_before
    (modify fun m : Machine W => { m with scopes := m.scopes.shrink loop.scopes })
    fun _ => (pure (.jump loop.continueTarget) : Work W Flow)
  exact lasting_after _ _

instance lasting_enterCallee (call : PendingCall) (site pos : Nat) (callee : Value) :
    Lasting (enterCallee call site pos callee : Work W Flow) := by
  refine ⟨fun {m _ _} hm _ => ?_⟩
  have hpushed := agrees_pushFrame hm (some site) call.calleeSlot call.receiver
  unfold enterCallee
  split
  · exact hpushed
  · exact hpushed
  · exact hpushed
  · exact ⟨rfl, rfl⟩

instance lasting_callPending (site pos : Nat) : Lasting (callPending site pos : Work W Flow) := by
  rw [callPending_eq_bind]
  infer_instance

theorem agrees_unframed {frame : Frame} (h : (m.unframed frame).Holds calls scopes) :
    Agrees calls scopes m (m.unframed frame) :=
  ⟨take_pop_of_le_size m.frames (holds_iff.mp h).1, take_shrink_of_le_size m.scopes (holds_iff.mp h).2⟩

instance lasting_returnFromCall : Lasting (returnFromCall : Work W Flow) := by
  refine ⟨fun {m calls scopes} _ hleft => ?_⟩
  cases hback : m.frames.back? with
  | none =>
    rw [returnFromCall_eq_bind, bind_eq]
    simp only [takeFrame, hback]
    exact ⟨rfl, rfl⟩
  | some frame =>
    rw [returnFromCall_eq hback] at hleft ⊢
    revert hleft
    cases frame.callSite with
    | some site => exact agrees_unframed
    | none =>
      intro hleft
      let ending : Work W Flow := pop >>= fun v => pure (.finish v)
      have hframes : (leftBy (ending (m.unframed frame))).frames = _ := Aloof.frames (m.unframed frame)
      have hscopes : (leftBy (ending (m.unframed frame))).scopes = _ := Aloof.scopes (m.unframed frame)
      obtain ⟨hcalls, hrest⟩ := agrees_unframed ((Aloof.holds ending (m.unframed frame)).mp hleft)
      exact ⟨(congrArg (Array.take · calls) hframes).trans hcalls, (congrArg (Array.take · scopes) hscopes).trans hrest⟩

instance lasting_carryOut (env : Embedding W) (c : Cursor) (i : Code.Instr) (firstEnd next : Nat) :
    Lasting (carryOut env c i firstEnd next) := by
  cases i with
  | newScope | delScope | loop =>
    simp only [carryOut]
    exact lasting_before _ _
  | _ =>
    simp only [carryOut]
    infer_instance

instance lasting_advance (env : Embedding W) (c : Cursor) : Lasting (advance env c) := by
  cases hread : Code.Decoded.read c.code c.pos with
  | instr i firstEnd next =>
    have (flow : Flow) : Aloof (settle c i.op flow : Work W Step) := by
      unfold settle
      split <;> infer_instance
    rw [advance_eq env hread]
    exact lasting_before _ _
  | _ =>
    unfold advance
    rw [hread]
    infer_instance

/-- A step of a run, after the collection that may come first. -/
theorem spared_step (env : Embedding W) (c : Cursor) (hm : m.Holds calls scopes)
    (hleft : (leftBy (advance env c m.collectIfNeeded)).Holds calls scopes) :
    Spared (Depths.floor calls scopes) m (leftBy (advance env c m.collectIfNeeded)) := by
  obtain ⟨hspared, -⟩ := collectIfNeeded_spares m hm
  have hagrees : Agrees calls scopes m.collectIfNeeded (leftBy (advance env c m.collectIfNeeded)) :=
    Lasting.agrees hspared.room hleft
  exact hspared.trans (hagrees.spared hleft)

theorem Agrees.of_eq (hframes : n.frames = m.frames) (hscopes : n.scopes = m.scopes) : Agrees calls scopes m n :=
  ⟨by rw [hframes], by rw [hscopes]⟩

theorem agrees_noteFailure (m : Machine W) (offset : Nat) (e : Error) : Agrees calls scopes m (m.noteFailure offset e) := by
  cases e <;> exact ⟨rfl, rfl⟩

theorem agrees_leaveHost (h : m.leaveHost.Holds calls scopes) : Agrees calls scopes m m.leaveHost := by
  unfold leaveHost at h ⊢
  split
  · rename_i hback
    rw [hback] at h
    exact ⟨take_pop_of_le_size m.frames (holds_iff.mp h).1, rfl⟩
  · exact ⟨rfl, rfl⟩

theorem agrees_leaveExecution {start : Depths} {receiver : Value} {result : Except Error Value}
    (h : (m.leaveExecution start receiver result).1.Holds calls scopes) :
    Agrees calls scopes m (m.leaveExecution start receiver result).1 := by
  obtain ⟨trace, interrupted, hend, -⟩ := leaveExecution_eq m start receiver result
  rw [hend] at h ⊢
  exact ⟨take_shrink_of_le_size m.frames (holds_iff.mp h).1, take_shrink_of_le_size m.scopes (holds_iff.mp h).2⟩

end Machine

namespace Moment

open Machine (Spared Agrees)

variable {W : Type} {env : Embedding W} {M M' : Moment W} {calls scopes : Nat}

theorem Next.spared (h : Next env M M') (ht : M.Tidy) (hM : M.machine.Holds calls scopes)
    (hM' : M'.machine.Holds calls scopes) : Spared (Depths.floor calls scopes) M.machine M'.machine := by
  have hstep {m m' : Machine W} {c : Cursor} {r : EStateM.Result Error (Machine W) Machine.Step}
      (hm : m.Holds calls scopes) (hadvance : Machine.advance env c m.collectIfNeeded = r) (hleft : leftBy r = m')
      (hm' : m'.Holds calls scopes) : Spared (Depths.floor calls scopes) m m' := by
    subst hadvance hleft
    exact Machine.spared_step env c hm hm'
  cases h with
  | stopped hup => exact .refl hM
  | @failed m m' K c entries e hgo hadvance =>
    have hholds : m'.Holds calls scopes := by cases e <;> exact hM'
    exact (hstep hM hadvance rfl hholds).trans ((Machine.agrees_noteFailure m' c.offset e).spared hM')
  | finished hgo hadvance | goOn hgo hadvance | host hgo hadvance => exact hstep hM hadvance rfl hM'
  | @resumed m K offset slot c entries v =>
    have hholds : m.leaveHost.Holds calls scopes := Machine.holds_iff.mpr ⟨Depths.Le.calls hM', Depths.Le.scopes hM'⟩
    exact Agrees.spared (Machine.agrees_leaveHost hholds) hM'
  | @hostFailed m K offset slot c entries e =>
    have hholds : m.leaveHost.Holds calls scopes := by cases e <;> exact hM'
    exact ((Machine.agrees_leaveHost hholds).spared hholds).trans
      ((Machine.agrees_noteFailure m.leaveHost offset e).spared hM')
  | @unloaded m K start receiver args | @enter m K start receiver args =>
    exact Agrees.spared (Machine.agrees_pushFrame hM none m.stack.size receiver) hM'
  | left => exact (Machine.agrees_leaveExecution hM').spared hM'
  | function | uncallable | answered => exact .refl hM
  | outside h => exact Agrees.spared (.of_eq rfl rfl) hM'
  | outsideLeft => exact Agrees.spared (.of_eq rfl rfl) hM'
  | done => exact ht.now.toKept.spared.mono hM
  | code | value => exact ht.now.1.toKept.spared.mono hM

theorem Soon.spared (h : Soon env M M') (ht : M.Tidy) (hM : M.machine.Holds calls scopes)
    (hM' : M'.machine.Holds calls scopes) : Spared (Depths.floor calls scopes) M.machine M'.machine := by
  rcases h with hnext | ⟨m, c, entries, K⟩
  · exact hnext.spared ht hM hM'
  · exact Agrees.spared (.of_eq rfl rfl) hM'

/-- Later, and at no moment since with fewer calls or scopes. -/
def StillOpen (env : Embedding W) (calls scopes : Nat) : Moment W → Moment W → Prop :=
  Relation.ReflTransGen fun M M' => Soon env M M' ∧ calls ≤ M'.machine.frames.size ∧ scopes ≤ M'.machine.scopes.size

theorem StillOpen.later (h : StillOpen env calls scopes M M') : Later env M M' :=
  Relation.ReflTransGen.mono (fun _ _ hstep => hstep.1) _ _ h

/-- What is still open is what it was. -/
theorem StillOpen.spared (henv : env.Steady) (h : StillOpen env calls scopes M M') (ht : M.Tidy)
    (hM : M.machine.Holds calls scopes) : Spared (Depths.floor calls scopes) M.machine M'.machine := by
  induction h with
  | refl => exact .refl hM
  | tail hopen hstep ih =>
    obtain ⟨hsoon, hbounds⟩ := hstep
    exact ih.trans (hsoon.spared (Later.grows henv (StillOpen.later hopen) ht).2 ih.room (Machine.holds_iff.mpr hbounds))

end Moment

end ScriptEngine
