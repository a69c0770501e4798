import ScriptEngine.Proofs.Machine.Fetches
import ScriptEngine.Proofs.Machine.Moments
/-!
What is known along a row of moments.

What waits is known as well as what goes on: functions outside of the code mind the stacks when they go on
(`Moment.Tidy`), and runs, executions and calls hold places in the code (`Moment.Bound`). One step keeps each of these,
so they are known at all moments of a session (`Moment.Occurs`), whoever asks its runs to stop. In particular, an
execution finds its code (`Moment.Occurs.loads`).
-/

namespace ScriptEngine

open Code (Header Op Program)

namespace Code.Program

variable {P : Program} {base offset : Nat} {unit : Array UInt8} {previous : Op}

/-- An offset in a unit is found. -/
theorem Has.exists_load (h : P.Has base unit) (hlow : base ≤ offset) (hhigh : offset < base + unit.size) :
    ∃ c, Cursor.load P offset previous = .ok c := by
  obtain ⟨part, hpart, rfl, rfl⟩ := h
  have hfound : (P.partAt? offset).isSome := by
    rw [partAt?, Array.find?_isSome]
    exact ⟨part, hpart, covers_iff.mpr ⟨hlow, hhigh⟩⟩
  obtain ⟨other, hother⟩ := Option.isSome_iff_exists.mp hfound
  exact ⟨_, by rw [Cursor.load, hother]⟩

/-- What can be entered is found. -/
theorem Readable.exists_load (hP : P.Readable) (h : P.Enters offset) : ∃ c, Cursor.load P offset previous = .ok c := by
  rcases h with ⟨base, unit, fs, f, hunit, hdecodes, hf, rfl⟩ | ⟨unit, hunit⟩
  · obtain ⟨-, -, hlt, hle⟩ := hdecodes.mem hf
    exact hunit.exists_load (Nat.le_add_right _ _) (by omega)
  · obtain ⟨fs, hdecodes⟩ := hP.units hunit
    obtain ⟨header, hheader, -⟩ := hdecodes.code
    obtain ⟨hlow, hhigh⟩ := Header.bounds_of_read? hheader
    obtain ⟨f, hf, -⟩ := hdecodes.exists_first hheader
    obtain ⟨-, -, hlt, hle⟩ := hdecodes.mem hf
    exact hunit.exists_load (Nat.le_refl _) (by omega)

variable {p q : Program}

theorem Grows.size_le (h : p.Grows q) : p.size ≤ q.size := by
  induction h with
  | refl => exact Nat.le_refl _
  | tail _ hstep ih =>
    refine Nat.le_trans ih ?_
    rcases hstep with ⟨unit, index, hcommit⟩ | ⟨index, succeeded, rfl⟩
    · obtain ⟨part, -, rfl, -⟩ := commit_eq hcommit
      exact Nat.le_add_right _ _
    · exact Nat.le_refl _

theorem Sourced.of_partOf (h : q.Sourced) (hp : p.PartOf q) : p.Sourced := by
  intro part hpart
  obtain ⟨other, hother, -, hdata, -⟩ := hp part hpart
  exact hdata ▸ h other hother

end Code.Program

namespace Waiting

variable {W : Type} {P p q : Program}

/-- What waits minds the stacks when it goes on with code that grew. -/
def Tidy (p : Program) : Waiting W → Prop
  | action next => ∀ n r, p.Grows n.program → (next n r).Tidy n
  | _ => True

theorem Tidy.grows {w : Waiting W} (h : w.Tidy p) (hp : p.Grows q) : w.Tidy q := by
  cases w with
  | action next => exact fun n r hn => h n r (hp.trans hn)
  | _ => trivial

/-- What waits holds places in the code only. -/
def Bound (P : Program) : Waiting W → Prop
  | run _ _ next _ => next.Fetches P
  | execution _ receiver | call _ receiver => receiver.Within P.InstrAt
  | action next => ∀ n r, n.Within P.InstrAt → Result.Within P.InstrAt r →
    (next n r).Honest P.InstrAt (Value.Within P.InstrAt)

end Waiting

namespace Moment

open Machine (advance callHost)

variable {W : Type} {env : Embedding W} {M M' : Moment W} {P : Program} {m m' : Machine W} {K : List (Waiting W)}

/-! ## The stacks are minded -/

/-- What goes on minds the stacks. -/
def NowTidy : Moment W → Prop
  | going t _ => t.Tidy
  | ended _ _ _ => True

/-- What goes on, and what waits for it, minds the stacks. -/
structure Tidy (M : Moment W) : Prop where
  now : M.NowTidy
  waiting : ∀ w ∈ M.waiting, w.Tidy M.machine.program

/-- Nothing more waits, and the code grew. -/
theorem Tidy.next (h : M.Tidy) (hgrows : M.machine.program.Grows M'.machine.program) (hnow : M'.NowTidy)
    (hwaiting : ∀ w ∈ M'.waiting, w ∈ M.waiting ∨ w.Tidy M'.machine.program) : M'.Tidy :=
  ⟨hnow, fun w hw => (hwaiting w hw).elim (fun hold => (h.waiting w hold).grows hgrows) id⟩

theorem tidy_of_on (h : (M.on K).Tidy) : M.Tidy := by
  obtain ⟨hnow, hwaiting⟩ := h
  rw [machine_on] at hwaiting
  cases M with
  | going t K' => exact ⟨hnow, fun w hw => hwaiting w (List.mem_append_left K hw)⟩
  | ended m r K' => exact ⟨trivial, fun w hw => hwaiting w (List.mem_append_left K hw)⟩

theorem Next.grows (henv : env.Steady) (h : Next env M M') (hM : M.Tidy) :
    M.machine.program.Grows M'.machine.program ∧ M'.Tidy := by
  have hsame (K : List (Waiting W)) : ∀ w ∈ K, w ∈ K ∨ w.Tidy M'.machine.program := fun w hw => .inl hw
  have hstep {m m' : Machine W} {c : Cursor} {r : EStateM.Result Error (Machine W) Machine.Step}
      (hadvance : advance env c m.collectIfNeeded = r) (hleft : leftBy r = m') : m.program.Grows m'.program := by
    have hprogram := Machine.program_step env c m
    rw [hadvance, hleft] at hprogram
    exact hprogram ▸ .refl _
  have hequal {p q : Program} (h : q = p) : p.Grows q := h ▸ .refl _
  cases h with
  | stopped hup => exact ⟨.refl _, hM.next (.refl _) trivial fun w hw => .inl hw⟩
  | @failed m m' K c entries e hgo hadvance =>
    have hgrows : m.program.Grows (m'.noteFailure c.offset e).program := by
      rw [Machine.program_noteFailure]
      exact hstep hadvance rfl
    exact ⟨hgrows, hM.next hgrows trivial fun w hw => .inl hw⟩
  | finished hgo hadvance | goOn hgo hadvance =>
    exact ⟨hstep hadvance rfl, hM.next (hstep hadvance rfl) trivial fun w hw => .inl hw⟩
  | @host m m' K c c' entries callee receiver args slot hgo hadvance =>
    refine ⟨hstep hadvance rfl, hM.next (hstep hadvance rfl) (Machine.tidy_callHost henv m' callee receiver args) ?_⟩
    intro w hw
    rcases List.mem_cons.mp hw with rfl | hw
    · exact .inr trivial
    · exact .inl hw
  | @resumed m K offset slot c entries v =>
    have hgrows : m.program.Grows (m.leaveHost.putResult slot v).program := hequal (Machine.program_leaveHost m)
    exact ⟨hgrows, hM.next hgrows trivial fun w hw => .inl (List.mem_cons_of_mem _ hw)⟩
  | @hostFailed m K offset slot c entries e =>
    have hgrows : m.program.Grows (m.leaveHost.noteFailure offset e).program :=
      hequal ((Machine.program_noteFailure _ _ _).trans (Machine.program_leaveHost m))
    exact ⟨hgrows, hM.next hgrows trivial fun w hw => .inl (List.mem_cons_of_mem _ hw)⟩
  | unloaded hload | enter hload =>
    refine ⟨.refl _, hM.next (.refl _) trivial fun w hw => ?_⟩
    rcases List.mem_cons.mp hw with rfl | hw
    · exact .inr trivial
    · exact .inl hw
  | @left m K r start receiver =>
    have hgrows : m.program.Grows (m.leaveExecution start receiver r).1.program :=
      hequal (Machine.program_leaveExecution _ _ _ _)
    exact ⟨hgrows, hM.next hgrows trivial fun w hw => .inl (List.mem_cons_of_mem _ hw)⟩
  | function => exact ⟨.refl _, hM.next (.refl _) trivial fun w hw => .inl hw⟩
  | outside h =>
    refine ⟨.refl _, hM.next (.refl _) (Machine.tidy_callHost henv _ _ _ _) fun w hw => ?_⟩
    rcases List.mem_cons.mp hw with rfl | hw
    · exact .inr trivial
    · exact .inl hw
  | uncallable h hcode => exact ⟨.refl _, hM.next (.refl _) trivial fun w hw => .inl hw⟩
  | outsideLeft => exact ⟨.refl _, hM.next (.refl _) trivial fun w hw => .inl (List.mem_cons_of_mem _ hw)⟩
  | done =>
    have hgrows := hM.now.grows
    exact ⟨hgrows, hM.next hgrows trivial fun w hw => .inl hw⟩
  | code | value =>
    have hgrows := hM.now.1.grows
    refine ⟨hgrows, hM.next hgrows trivial fun w hw => ?_⟩
    rcases List.mem_cons.mp hw with rfl | hw
    · exact .inr hM.now.2.2
    · exact .inl hw
  | @answered m K r next =>
    have hnext := hM.waiting _ List.mem_cons_self m r (.refl _)
    exact ⟨.refl _, hM.next (.refl _) hnext fun w hw => .inl (List.mem_cons_of_mem _ hw)⟩

theorem Soon.grows (henv : env.Steady) (h : Soon env M M') (hM : M.Tidy) :
    M.machine.program.Grows M'.machine.program ∧ M'.Tidy := by
  rcases h with hnext | ⟨m, c, entries, K⟩
  · exact hnext.grows henv hM
  · exact ⟨.refl _, hM.next (.refl _) trivial fun w hw => .inl hw⟩

theorem Later.grows (henv : env.Steady) (h : Later env M M') (hM : M.Tidy) :
    M.machine.program.Grows M'.machine.program ∧ M'.Tidy := by
  induction h with
  | refl => exact ⟨.refl _, hM⟩
  | tail _ hsoon ih =>
    obtain ⟨hgrows, htidy⟩ := hsoon.grows henv ih.2
    exact ⟨ih.1.trans hgrows, htidy⟩

/-! ## Places in the code -/

/-- What goes on holds places in the code only. -/
def NowBound (P : Program) : Moment W → Prop
  | going t _ => t.Bound P
  | ended m r _ => m.Bound P.InstrAt ∧ Result.Within P.InstrAt r

/-- What goes on, and what waits for it, holds places in the code only. -/
structure Bound (P : Program) (M : Moment W) : Prop where
  now : M.NowBound P
  waiting : ∀ w ∈ M.waiting, w.Bound P

theorem Bound.next (h : M.Bound P) (hnow : M'.NowBound P) (hwaiting : ∀ w ∈ M'.waiting, w ∈ M.waiting ∨ w.Bound P) :
    M'.Bound P :=
  ⟨hnow, fun w hw => (hwaiting w hw).elim (h.waiting w) id⟩

theorem Next.bound (henv : env.Steady) (hP : P.Readable) (h : Next env M M') (ht : M.Tidy) (hM : M.Bound P)
    (hpart : M'.machine.program.PartOf P) : M'.Bound P := by
  have hprogram : M.machine.program.PartOf P := (h.grows henv ht).1.partOf.trans hpart
  cases h with
  | stopped hup => exact hM.next ⟨hM.now.1, Result.within_error _⟩ fun w hw => .inl hw
  | @failed m m' K c entries e hgo hadvance =>
    obtain ⟨hleft, -⟩ := hM.now.1.step hP hprogram hM.now.2 env
    rw [hadvance] at hleft
    exact hM.next ⟨hleft.noteFailure c.offset e, Result.within_error e⟩ fun w hw => .inl hw
  | @finished m m' K c entries v hgo hadvance =>
    obtain ⟨hleft, hstep⟩ := hM.now.1.step hP hprogram hM.now.2 env
    rw [hadvance] at hleft
    exact hM.next ⟨hleft, Result.within_ok (hstep _ _ hadvance).2⟩ fun w hw => .inl hw
  | @goOn m m' K c c' entries hgo hadvance =>
    obtain ⟨hleft, hstep⟩ := hM.now.1.step hP hprogram hM.now.2 env
    rw [hadvance] at hleft
    exact hM.next ⟨hleft, (hstep _ _ hadvance).1⟩ fun w hw => .inl hw
  | @host m m' K c c' entries callee receiver args slot hgo hadvance =>
    obtain ⟨hleft, hstep⟩ := hM.now.1.step hP hprogram hM.now.2 env
    rw [hadvance] at hleft
    obtain ⟨hfetches, -, hreceiver, hargs⟩ := hstep _ _ hadvance
    refine hM.next ⟨hleft.places, Machine.honest_callHost henv hleft.functions hreceiver hargs⟩ fun w hw => ?_
    rcases List.mem_cons.mp hw with rfl | hw
    · exact .inr hfetches
    · exact .inl hw
  | @resumed m K offset slot c entries v =>
    have hfetches := hM.waiting _ List.mem_cons_self
    refine hM.next ⟨hM.now.1.leaveHost.putResult slot (hM.now.2 v rfl), hfetches⟩ fun w hw => ?_
    exact .inl (List.mem_cons_of_mem _ hw)
  | @hostFailed m K offset slot c entries e =>
    refine hM.next ⟨hM.now.1.leaveHost.noteFailure offset e, Result.within_error e⟩ fun w hw => ?_
    exact .inl (List.mem_cons_of_mem _ hw)
  | unloaded hload =>
    obtain ⟨hm, hentry, hreceiver, hargs⟩ := hM.now
    refine hM.next ⟨hm.enterExecution hreceiver hargs, Result.within_error _⟩ fun w hw => ?_
    rcases List.mem_cons.mp hw with rfl | hw
    · exact .inr hm.functions.receiver
    · exact .inl hw
  | enter hload =>
    obtain ⟨hm, hentry, hreceiver, hargs⟩ := hM.now
    refine hM.next ⟨hm.enterExecution hreceiver hargs, hP.load hprogram hentry hload⟩ fun w hw => ?_
    rcases List.mem_cons.mp hw with rfl | hw
    · exact .inr hm.functions.receiver
    · exact .inl hw
  | @left m K r start receiver =>
    have hreceiver := hM.waiting _ List.mem_cons_self
    refine hM.next ⟨hM.now.1.leaveExecution start hreceiver r, ?_⟩ fun w hw => .inl (List.mem_cons_of_mem _ hw)
    obtain ⟨_, _, -, hresult⟩ := Machine.leaveExecution_eq m start receiver r
    rcases hresult with hresult | hresult
    · rw [hresult]
      exact hM.now.2
    · rw [hresult]
      exact Result.within_ok Value.within_undefined
  | function =>
    obtain ⟨hm, hcallee, hreceiver, hargs⟩ := hM.now
    exact hM.next ⟨hm, .inl (Machine.instrAt_of_within hcallee), hreceiver, hargs⟩ fun w hw => .inl hw
  | outside h =>
    obtain ⟨hm, hcallee, hreceiver, hargs⟩ := hM.now
    have henter := hm.enterHostCall hcallee hreceiver hargs
    refine hM.next ⟨henter.places, Machine.honest_callHost henv henter.functions hreceiver hargs⟩ fun w hw => ?_
    rcases List.mem_cons.mp hw with rfl | hw
    · exact .inr hm.functions.receiver
    · exact .inl hw
  | uncallable h hcode => exact hM.next ⟨hM.now.1, Result.within_error _⟩ fun w hw => .inl hw
  | outsideLeft =>
    have hreceiver := hM.waiting _ List.mem_cons_self
    exact hM.next ⟨hM.now.1.leaveHostCall _ hreceiver, hM.now.2⟩ fun w hw => .inl (List.mem_cons_of_mem _ hw)
  | @done m m' K r =>
    obtain ⟨hplaces, hhonest⟩ := hM.now
    have htidy : m'.Onward m := ht.now
    exact hM.next ⟨⟨hhonest.1, htidy.toKept.skeleton ▸ hplaces⟩, hhonest.2⟩ fun w hw => .inl hw
  | code =>
    obtain ⟨hplaces, ⟨hwithin, -, hreceiver, hargs⟩, hnext⟩ := hM.now
    obtain ⟨unit, hunit⟩ := ht.now.2.1
    refine hM.next ⟨⟨hwithin, ht.now.1.toKept.skeleton ▸ hplaces⟩, .inr ⟨unit, hunit.of_partOf hpart⟩, hreceiver, hargs⟩
      fun w hw => ?_
    rcases List.mem_cons.mp hw with rfl | hw
    · exact .inr hnext
    · exact .inl hw
  | value =>
    obtain ⟨hplaces, ⟨hwithin, hcallee, hreceiver, hargs⟩, hnext⟩ := hM.now
    refine hM.next ⟨⟨hwithin, ht.now.1.toKept.skeleton ▸ hplaces⟩, hcallee, hreceiver, hargs⟩ fun w hw => ?_
    rcases List.mem_cons.mp hw with rfl | hw
    · exact .inr hnext
    · exact .inl hw
  | @answered m K r next =>
    have hnext := hM.waiting _ List.mem_cons_self
    exact hM.next ⟨hM.now.1.places, hnext m r hM.now.1.functions hM.now.2⟩ fun w hw => .inl (List.mem_cons_of_mem _ hw)

theorem Soon.bound (henv : env.Steady) (hP : P.Readable) (h : Soon env M M') (ht : M.Tidy) (hM : M.Bound P)
    (hpart : M'.machine.program.PartOf P) : M'.Bound P := by
  rcases h with hnext | ⟨m, c, entries, K⟩
  · exact hnext.bound henv hP ht hM hpart
  · have hwithin : m.interrupt.Within P.InstrAt :=
      hM.now.1.functions.change (g := Machine.interrupt) (fun _ _ => rfl) ⟨rfl, rfl, rfl⟩
    exact hM.next ⟨hM.now.1.of_skeleton hwithin rfl, hM.now.2⟩ fun w hw => .inl hw

theorem Later.bound (henv : env.Steady) (hP : P.Readable) (h : Later env M M') (ht : M.Tidy) (hM : M.Bound P)
    (hpart : M'.machine.program.PartOf P) : M'.Bound P := by
  induction h with
  | refl => exact hM
  | tail hlater hsoon ih =>
    have htidy := (Later.grows henv hlater ht).2
    exact hsoon.bound henv hP htidy (ih ((hsoon.grows henv htidy).1.partOf.trans hpart)) hpart

/-! ## Sessions -/

/-- It is a moment of some session, whoever asks for a stop. -/
def Occurs (env : Embedding W) (M : Moment W) : Prop :=
  ∃ m a, Machine.Opens m a ∧ Later env (going (.action m a) []) M

theorem Occurs.later (h : M.Occurs env) (hlater : Later env M M') : M'.Occurs env := by
  obtain ⟨m, a, hopens, hM⟩ := h
  exact ⟨m, a, hopens, hM.trans hlater⟩

theorem Occurs.grows (h : M.Occurs env) (henv : env.Steady) : Program.empty.Grows M.machine.program ∧ M.Tidy := by
  obtain ⟨m, a, hopens, hM⟩ := h
  obtain ⟨_, _, _, hnew⟩ := hopens.new
  have hopen : (going (.action m a) []).Tidy := ⟨hopens.tidy, fun w hw => absurd hw List.not_mem_nil⟩
  obtain ⟨hgrows, htidy⟩ := Later.grows henv hM hopen
  rw [show (going (.action m a) []).machine.program = Program.empty from Machine.program_new hnew] at hgrows
  exact ⟨hgrows, htidy⟩

/-- All that goes on, and all that waits, holds places in the code only. -/
theorem Occurs.bound (h : M.Occurs env) (henv : env.Steady) (hP : P.Readable) (hpart : M.machine.program.PartOf P) :
    M.Bound P := by
  obtain ⟨m, a, hopens, hM⟩ := h
  obtain ⟨_, _, _, hnew⟩ := hopens.new
  have hopen : (going (.action m a) []).Tidy := ⟨hopens.tidy, fun w hw => absurd hw List.not_mem_nil⟩
  exact Later.bound henv hP hM hopen
    ⟨⟨Machine.bound_new hnew, hopens.honest _⟩, fun w hw => absurd hw List.not_mem_nil⟩ hpart

theorem Occurs.readable (h : M.Occurs env) (henv : env.Steady) (hsourced : M.machine.program.Sourced)
    (hsmall : M.machine.program.size ≤ UInt64.size) : M.machine.program.Readable :=
  Program.readable_of_sourced ((h.grows henv).1.committed Program.committed_empty) hsourced hsmall

/-- An execution that is about to start finds its code. -/
def Loads : Moment W → Prop
  | going (.execution m start _ _) _ => ∃ c, Cursor.load m.program start .nop = .ok c
  | _ => True

theorem loads_of_on (h : (M.on K).Loads) : M.Loads := by
  cases M with
  | going t K' =>
    cases t with
    | execution m start receiver args => exact h
    | _ => trivial
  | ended m r K' => trivial

/-- Executions find their code. -/
theorem Occurs.loads (h : M.Occurs env) (henv : env.Steady) (hsourced : M.machine.program.Sourced)
    (hsmall : M.machine.program.size ≤ UInt64.size) : M.Loads := by
  cases M with
  | ended m r K => trivial
  | going t K =>
    cases t with
    | execution m start receiver args =>
      have hP := h.readable henv hsourced hsmall
      obtain ⟨-, hentry, -⟩ := (h.bound henv hP (.refl _)).now
      exact hP.exists_load hentry
    | _ => trivial

end Moment

end ScriptEngine
