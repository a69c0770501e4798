import ScriptEngine.Proofs.Machine.Reachable
import ScriptEngine.Proofs.Machine.Rows
/-!
What moments of a session are reached by.

Between two moments a machine does operations, if what goes on and what waits for it does operations only
(`Moment.Next.follows`). So where an embedder does operations only, all machines of its session are reachable from a
new one (`Moment.Arises.reachable`), which says that their heaps are in order.
-/

namespace ScriptEngine

/-- What waits does operations only, whatever operations come before. -/
def Waiting.Follows {W : Type} (env : Embedding W) (m : Machine W) : Waiting W → Prop
  | action next => ∀ n r, Machine.Leads env m n → (next n r).Follows env n
  | _ => True

theorem Waiting.Follows.of_leads {W : Type} {env : Embedding W} {m n : Machine W} {w : Waiting W}
    (h : w.Follows env m) (hleads : Machine.Leads env m n) : w.Follows env n := by
  cases w with
  | action next => exact fun l r hl => h l r (hleads.trans hl)
  | _ => trivial

namespace Moment

open Machine (advance leads_of_heap)

variable {W : Type} {env : Embedding W} {M M' : Moment W}

/-- What goes on does operations only. -/
def NowFollows (env : Embedding W) : Moment W → Prop
  | going (.action m a) _ => a.Follows env m
  | _ => True

/-- What goes on, and what waits for it, does operations only. -/
structure Follows (env : Embedding W) (M : Moment W) : Prop where
  now : M.NowFollows env
  waiting : ∀ w ∈ M.waiting, w.Follows env M.machine

/-- Nothing more waits. -/
theorem Follows.next (h : M.Follows env) (hleads : Machine.Leads env M.machine M'.machine) (hnow : M'.NowFollows env)
    (hwaiting : ∀ w ∈ M'.waiting, w ∈ M.waiting ∨ w.Follows env M'.machine) :
    Machine.Leads env M.machine M'.machine ∧ M'.Follows env :=
  ⟨hleads, hnow, fun w hw => (hwaiting w hw).elim (fun hold => (h.waiting w hold).of_leads hleads) id⟩

theorem Next.follows (henv : env.Follows) (h : Next env M M') (hM : M.Follows env) :
    Machine.Leads env M.machine M'.machine ∧ M'.Follows env := by
  have hstep {m m' : Machine W} {c : Cursor} {r : EStateM.Result Error (Machine W) Machine.Step}
      (hadvance : advance env c m.collectIfNeeded = r) (hleft : leftBy r = m') : Machine.Leads env m m' := by
    subst hadvance hleft
    exact (Machine.leads_collectIfNeeded m).trans (Machine.leads_operation (.instruction c) _)
  have hpush {m : Machine W} {w : Waiting W} {K : List (Waiting W)} (hw : w.Follows env m) :
      ∀ w' ∈ w :: K, w' ∈ K ∨ w'.Follows env m := by
    intro w' hw'
    rcases List.mem_cons.mp hw' with rfl | hw'
    · exact .inr hw
    · exact .inl hw'
  have hpop {m : Machine W} {w : Waiting W} {K : List (Waiting W)} :
      ∀ w' ∈ K, w' ∈ w :: K ∨ w'.Follows env m :=
    fun w' hw' => .inl (List.mem_cons_of_mem _ hw')
  cases h with
  | stopped hup => exact hM.next (.refl _) trivial fun w hw => .inl hw
  | failed hgo hadvance =>
    refine hM.next ((hstep hadvance rfl).trans (leads_of_heap ?_)) trivial fun w hw => .inl hw
    exact Machine.heap_noteFailure _ _ _
  | finished hgo hadvance | goOn hgo hadvance => exact hM.next (hstep hadvance rfl) trivial fun w hw => .inl hw
  | @host m m' K c c' entries callee receiver args slot hgo hadvance =>
    exact hM.next (hstep hadvance rfl) (Machine.follows_callHost henv m' callee receiver args) (hpush trivial)
  | @resumed m K offset slot c entries v =>
    refine hM.next (leads_of_heap ?_) trivial hpop
    exact Machine.heap_leaveHost m
  | @hostFailed m K offset slot c entries e =>
    refine hM.next (leads_of_heap ?_) trivial hpop
    exact (Machine.heap_noteFailure _ _ _).trans (Machine.heap_leaveHost m)
  | unloaded hload | enter hload => exact hM.next (leads_of_heap rfl) trivial (hpush trivial)
  | left => exact hM.next (leads_of_heap (Machine.heap_leaveExecution _ _ _ _)) trivial hpop
  | function => exact hM.next (.refl _) trivial fun w hw => .inl hw
  | outside h => exact hM.next (leads_of_heap rfl) (Machine.follows_callHost henv _ _ _ _) (hpush trivial)
  | uncallable h hcode => exact hM.next (.refl _) trivial fun w hw => .inl hw
  | outsideLeft => exact hM.next (leads_of_heap rfl) trivial hpop
  | done => exact hM.next hM.now trivial fun w hw => .inl hw
  | code | value => exact hM.next hM.now.1 trivial (hpush hM.now.2)
  | @answered m K r next => exact hM.next (.refl _) (hM.waiting _ List.mem_cons_self m r (.refl _)) hpop

theorem Soon.follows (henv : env.Follows) (h : Soon env M M') (hM : M.Follows env) :
    Machine.Leads env M.machine M'.machine ∧ M'.Follows env := by
  rcases h with hnext | ⟨m, c, entries, K⟩
  · exact hnext.follows henv hM
  · exact hM.next (leads_of_heap rfl) trivial fun w hw => .inl hw

theorem Later.follows (henv : env.Follows) (h : Later env M M') (hM : M.Follows env) :
    Machine.Leads env M.machine M'.machine ∧ M'.Follows env := by
  induction h with
  | refl => exact ⟨.refl _, hM⟩
  | tail _ hsoon ih =>
    obtain ⟨hleads, hfollows⟩ := hsoon.follows henv ih.2
    exact ⟨ih.1.trans hleads, hfollows⟩

/-- It is a moment of some session in which the embedder does operations only, whoever asks for a stop. -/
def Arises (env : Embedding W) (M : Moment W) : Prop :=
  ∃ m a, Machine.Opens m a ∧ a.Follows env m ∧ Later env (going (.action m a) []) M

theorem Arises.occurs (h : M.Arises env) : M.Occurs env := by
  obtain ⟨m, a, hopens, -, hM⟩ := h
  exact ⟨m, a, hopens, hM⟩

theorem Arises.later (h : M.Arises env) (hlater : Later env M M') : M'.Arises env := by
  obtain ⟨m, a, hopens, hfollows, hM⟩ := h
  exact ⟨m, a, hopens, hfollows, hM.trans hlater⟩

/-- The machines of such a session are reachable. -/
theorem Arises.reachable (h : M.Arises env) (henv : env.Follows) (haddr : M.machine.heap.Addressable) :
    Machine.Reachable env M.machine := by
  obtain ⟨m, a, hopens, hfollows, hM⟩ := h
  obtain ⟨o, output, world, hm⟩ := hopens.new
  have hopen : (going (.action m a) []).Follows env := ⟨hfollows, fun w hw => absurd hw List.not_mem_nil⟩
  exact ⟨⟨o, output, world, m, hm, (Later.follows henv hM hopen).1⟩, haddr⟩

end Moment

/-- What a reachable machine leads to is reachable, while handles have room for the numbers of slots. -/
theorem Machine.Reachable.on_way {W : Type} {env : Embedding W} {m l n : Machine W} (h : Machine.Reachable env m)
    (hleads : Machine.Leads env m l) (hrest : Machine.Leads env l n) (haddr : n.heap.Addressable) :
    Machine.Reachable env l :=
  h.leads hleads ((hrest.abides Heap.course_keeps).addressable haddr)

end ScriptEngine
