import ScriptEngine.Proofs.Machine.Bounds
import ScriptEngine.Proofs.Machine.Sessions
/-!
Where runs read instructions.

Over a program that reads as instructions, a cursor is at the header of a unit or at one of its instructions
(`Cursor.Fetches`), and the machine is bound for instructions only. A step keeps that up (`Bound.advance`), and
so does everything that runs, whatever comes of it (`RunsBound`); nothing is asked of the stacks of values, so it
goes for all scripts.
-/

namespace ScriptEngine

open Code (Decoded Decodes Fetch Header Instr Op Program)

/-- The cursor is at the header of a unit, or at an instruction of it. -/
structure Cursor.Fetches (P : Program) (c : Cursor) : Prop where
  has : P.Has c.base c.code
  first : ∃ header, Header.read? c.code = some header ∧ c.codeStart = header.codeStart
  here : ∃ fs, Decodes c.code fs ∧ (c.pos = 0 ∨ ∃ f ∈ fs, f.pos = c.pos)

/-- Some offset is that of an instruction or the start of a unit. -/
def Code.Program.Enters (P : Program) (o : Nat) : Prop :=
  P.InstrAt o ∨ ∃ unit, P.Has o unit

namespace Code.Program.Readable

variable {P p : Program} {offset : Nat} {c c' : Cursor} {previous : Op}

/-- Looking an offset up ends at the instruction there. -/
theorem load (hP : P.Readable) (hp : p.PartOf P) (h : P.Enters offset)
    (hload : Cursor.load p offset previous = .ok c) : c.Fetches P := by
  rcases h with ⟨base, unit, fs, f, hunit, hdecodes, hf, rfl⟩ | ⟨unit, hunit⟩
  · obtain ⟨-, -, hlt, hle⟩ := hdecodes.mem hf
    obtain ⟨header, hheader, rfl⟩ := hP.committed.load hp hunit (Nat.le_add_right _ _) (by omega) hload
    exact ⟨hunit, ⟨header, hheader, rfl⟩, fs, hdecodes, .inr ⟨f, hf, (Nat.add_sub_cancel_left ..).symm⟩⟩
  · obtain ⟨fs, hdecodes⟩ := hP.units hunit
    obtain ⟨header, hheader, -⟩ := hdecodes.code
    obtain ⟨hlow, hhigh⟩ := Header.bounds_of_read? hheader
    obtain ⟨f, hf, -⟩ := hdecodes.exists_first hheader
    obtain ⟨-, -, hlt, hle⟩ := hdecodes.mem hf
    obtain ⟨header, hheader, rfl⟩ := hP.committed.load hp hunit (Nat.le_refl _) (by omega) hload
    exact ⟨hunit, ⟨header, hheader, rfl⟩, fs, hdecodes, .inl (Nat.sub_self _)⟩

/-- So does going there from another place. -/
theorem goTo (hP : P.Readable) (hp : p.PartOf P) (hc : c.Fetches P) (h : P.InstrAt offset)
    (hgo : c.goTo p offset previous = .ok c') : c'.Fetches P := by
  obtain ⟨base, unit, fs, f, hunit, hdecodes, hf, rfl⟩ := h
  obtain ⟨-, -, hlt, hle⟩ := hdecodes.mem hf
  obtain ⟨header, hheader, hfirst⟩ := hc.first
  obtain ⟨header', hheader', rfl⟩ :=
    hP.committed.goTo hp hc.has hheader hfirst hunit (Nat.le_add_right _ _) (by omega) hgo
  exact ⟨hunit, ⟨header', hheader', rfl⟩, fs, hdecodes, .inr ⟨f, hf, (Nat.add_sub_cancel_left ..).symm⟩⟩

end Code.Program.Readable

namespace Machine

variable {W : Type} {env : Embedding W} {P : Program} {m m' n : Machine W} {c : Cursor}

/-- What is at a cursor, and where the code has it go on. -/
theorem exists_fetch (hc : c.Fetches P) : ∃ fs f, Decodes c.code fs ∧ f.pos = c.pos
    ∧ Decoded.read c.code c.pos = .instr f.instr f.firstEnd f.next
    ∧ (c.pos = 0 ∧ f.instr = .header ∨ f ∈ fs) ∧ Goes (fun pos => ∃ g ∈ fs, g.pos = pos) P.InstrAt c f := by
  obtain ⟨hhas, ⟨header, hheader, hfirst⟩, fs, hdecodes, hhere⟩ := hc
  have hoffset (pos : Nat) (hpos : ∃ g ∈ fs, g.pos = pos) : P.InstrAt (c.base + pos) := by
    obtain ⟨g, hg, rfl⟩ := hpos
    exact ⟨c.base, c.code, fs, g, hhas, hdecodes, hg, rfl⟩
  have hstart : ∃ g ∈ fs, g.pos = c.codeStart := hfirst ▸ hdecodes.exists_first hheader
  rcases hhere with hpos | ⟨f, hf, hpos⟩
  · refine ⟨fs, ⟨0, .header, 1, 1⟩, hdecodes, hpos.symm, hpos ▸ hdecodes.header, .inl ⟨hpos, rfl⟩, trivial, ?_,
      fun _ => hstart, (fun h => by cases h), hoffset⟩
    exact fun _ h => absurd rfl h
  · have hread := (hdecodes.mem hf).1
    rw [hpos] at hread
    refine ⟨fs, f, hdecodes, hpos, hread, .inr hf, hdecodes.targets f hf, fun hexit _ => hdecodes.exists_next hf hexit,
      fun _ => hstart, fun hcall => ?_, hoffset⟩
    rw [hcall] at hread
    exact Decoded.next_of_call hread

/-- The functions that code makes start at instructions. -/
theorem within_functionBack (hP : P.Readable) (hc : c.Fetches P) {back firstEnd next : Nat} {v : Value}
    (hread : Decoded.read c.code c.pos = .instr (.pushFunc back) firstEnd next)
    (hv : functionBack c.offset back = .ok v) : v.Within P.InstrAt := by
  obtain ⟨fs, f, hdecodes, hpos, hread', -, hgoes⟩ := exists_fetch hc
  rw [hread] at hread'
  injection hread' with hinstr
  have htargets := hgoes.targets
  unfold Fetch.Targets at htargets
  rw [← hinstr] at htargets
  obtain ⟨start, hstart, hfound⟩ := htargets
  have hat := hgoes.offset start hfound
  obtain ⟨g, hg, rfl⟩ := hfound
  obtain ⟨-, -, hlt, hle⟩ := hdecodes.mem hg
  have hstop := hP.committed.stop_le hc.has
  have hsmall := hP.small
  rw [Cursor.offset, ← hpos, ← hstart, ← Nat.add_assoc] at hv
  obtain ⟨entry, rfl, hentry⟩ := functionBack_eq_ok hv (by omega)
  exact Value.within_function (hentry ▸ hat)

/-- Where a step leads, an instruction is read. -/
def StepFetches (P : Program) : Step → Prop
  | .goOn c | .host _ _ _ _ c => c.Fetches P
  | .finish _ => True

/-- A step at an instruction leads to instructions, and keeps the machine bound for them. -/
theorem Bound.advance (h : m.Bound P.InstrAt) (hP : P.Readable) (hprogram : m.program.PartOf P) (hc : c.Fetches P)
    (env : Embedding W) : (leftBy (advance env c m)).Bound P.InstrAt
      ∧ ∀ step m', Machine.advance env c m = .ok step m' → StepFetches P step ∧ StepWithin P.InstrAt step := by
  obtain ⟨fs, f, hdecodes, hpos, hread, -, hgoes⟩ := exists_fetch hc
  have hzero : ¬ P.InstrAt 0 := fun h0 => absurd (Code.Program.one_lt_of_instrAt h0) (by decide)
  have hone : ¬ P.InstrAt 1 := fun h1 => absurd (Code.Program.one_lt_of_instrAt h1) (by decide)
  obtain ⟨hwithin, hvalues⟩ := h.functions.advance env c fun back v firstEnd next hpush hv =>
    within_functionBack hP hc hpush hv
  obtain ⟨hleft, hflow⟩ := h.carryOut hzero hone env hgoes
  have hquiet := (quiet_carryOut env c f.instr f.firstEnd f.next m).1
  suffices (leftBy (Machine.advance env c m)).skeleton.Bound P.InstrAt
      ∧ ∀ step m', Machine.advance env c m = .ok step m' → StepFetches P step from
    ⟨⟨hwithin, this.1⟩, fun step m' hstep => ⟨this.2 step m' hstep, hvalues step m' hstep⟩⟩
  have hplace {pos : Nat} (hfound : ∃ g ∈ fs, g.pos = pos) (op : Op) :
      ({ c with pos := pos, previous := op } : Cursor).Fetches P :=
    ⟨hc.has, hc.first, fs, hdecodes, .inr hfound⟩
  rw [advance_eq env hread, bind_eq]
  cases hwork : Machine.carryOut env c f.instr f.firstEnd f.next m with
  | error e n =>
    rw [hwork] at hleft
    exact ⟨hleft, fun _ _ hstep => by cases hstep⟩
  | ok flow n =>
    rw [hwork] at hleft hquiet
    have hbound := hflow flow n hwork
    cases flow with
    | goOn pos | host callee receiver args slot pos =>
      refine ⟨hleft, fun step m' hstep => ?_⟩
      cases hstep
      exact hplace hbound f.instr.op
    | finish v =>
      refine ⟨hleft, fun step m' hstep => ?_⟩
      cases hstep
      trivial
    | jump offset =>
      have hn : n.program.PartOf P := by rwa [show n.program = m.program from hquiet]
      simp only [settle, bind_eq, inspect]
      cases hgo : c.goTo n.program offset f.instr.op with
      | error e => exact ⟨hleft, fun _ _ hstep => by cases hstep⟩
      | ok c' =>
        refine ⟨hleft, fun step m' hstep => ?_⟩
        cases hstep
        exact hP.goTo hn hc hbound hgo

/-! ## Starts and ends -/

section Ends

variable {S : Nat → Prop}

theorem Bound.of_skeleton (h : m.Bound S) (hwithin : n.Within S) (hskeleton : n.skeleton = m.skeleton) : n.Bound S :=
  ⟨hwithin, hskeleton ▸ h.places⟩

theorem Bound.collectIfNeeded (h : m.Bound S) : m.collectIfNeeded.Bound S :=
  h.of_skeleton h.functions.collectIfNeeded (collectIfNeeded_spares m (Depths.Le.refl _)).2

theorem Bound.noteFailure (h : m.Bound S) (offset : Nat) (e : Error) : (m.noteFailure offset e).Bound S := by
  refine h.of_skeleton (h.functions.noteFailure offset e) ?_
  cases e <;> rfl

theorem Bound.leaveHost (h : m.Bound S) : m.leaveHost.Bound S := by
  refine ⟨h.functions.leaveHost, ?_⟩
  rw [skeleton_leaveHost]
  exact ⟨fun r hr => h.places.returns r (List.mem_of_mem_tail hr), h.places.loops⟩

theorem Bound.putResult (h : m.Bound S) (slot : Nat) {v : Value} (hv : v.Within S) : (m.putResult slot v).Bound S := by
  refine ⟨h.functions.putResult slot hv, ?_⟩
  rw [skeleton_putResult]
  exact ⟨h.places.returns, h.places.loops⟩

theorem Bound.enterHostCall (h : m.Bound S) {callee receiver : Value} {args : List Value} (hcallee : callee.Within S)
    (hreceiver : receiver.Within S) (hargs : Values.Within S args) : (m.enterHostCall callee receiver args).Bound S :=
  ⟨h.functions.enterHostCall hcallee hreceiver hargs, h.places.returns, h.places.loops⟩

theorem Bound.leaveHostCall (h : m.Bound S) (size : Nat) {receiver : Value} (hreceiver : receiver.Within S) :
    (m.leaveHostCall size receiver).Bound S :=
  ⟨h.functions.leaveHostCall size hreceiver, h.places.returns, h.places.loops⟩

/-- An execution goes back to nowhere. -/
theorem Bound.enterExecution (h : m.Bound S) {receiver : Value} {args : List Value} (hreceiver : receiver.Within S)
    (hargs : Values.Within S args) : (m.enterExecution receiver args).Bound S := by
  obtain ⟨hframes, hloops⟩ := bound_skeleton_iff.mp h.places
  refine ⟨h.functions.enterExecution hreceiver hargs, bound_skeleton_iff.mpr ⟨fun f hf site hsite => ?_, hloops⟩⟩
  rcases Array.mem_push.mp hf with hf | rfl
  · exact hframes f hf site hsite
  · cases hsite

theorem mem_of_mem_shrink {ι : Type} {xs : Array ι} {k : Nat} {x : ι} (h : x ∈ xs.shrink k) : x ∈ xs := by
  rw [Array.shrink_eq_take] at h
  obtain ⟨i, hi, rfl⟩ := Array.mem_iff_getElem.mp h
  simp

theorem Bound.leaveExecution (h : m.Bound S) (d : Depths) {receiver : Value} (hreceiver : receiver.Within S)
    (result : Except Error Value) : (m.leaveExecution d receiver result).1.Bound S := by
  refine ⟨h.functions.leaveExecution d hreceiver result, ?_⟩
  obtain ⟨hframes, hloops⟩ := bound_skeleton_iff.mp h.places
  obtain ⟨trace, interrupted, hend, -⟩ := leaveExecution_eq m d receiver result
  rw [hend]
  exact bound_skeleton_iff.mpr ⟨fun f hf => hframes f (mem_of_mem_shrink hf), fun l hl => hloops l (mem_of_mem_shrink hl)⟩

end Ends

/-! ## Runs -/

/-- What ended leaves a machine that is bound for instructions, and functions that start at some. -/
structure EndsBound (P : Program) (n : Machine W) (result : Except Error Value) : Prop where
  machine : n.Bound P.InstrAt
  result : Result.Within P.InstrAt result

/-- What holds of runs that take `budget` at most and end with code that is part of a program. -/
structure RunsBound (env : Embedding W) (P : Program) (budget : Nat) : Prop where
  run : ∀ {m n : Machine W} {c : Cursor} {result : Except Error Value}, m.Bound P.InstrAt → c.Fetches P →
    Machine.run env m c budget = .done n result → n.program.PartOf P → EndsBound P n result
  execute : ∀ {m n : Machine W} {start : Nat} {receiver : Value} {args : List Value} {result : Except Error Value},
    m.Bound P.InstrAt → P.Enters start → receiver.Within P.InstrAt → Values.Within P.InstrAt args →
    Machine.execute env m start receiver args budget = .done n result → n.program.PartOf P → EndsBound P n result
  callValue : ∀ {m n : Machine W} {callee receiver : Value} {args : List Value} {result : Except Error Value},
    m.Bound P.InstrAt → callee.Within P.InstrAt → receiver.Within P.InstrAt → Values.Within P.InstrAt args →
    Machine.callValue env m callee receiver args budget = .done n result → n.program.PartOf P → EndsBound P n result
  perform : ∀ {m n : Machine W} {a : Action W Value} {result : Except Error Value}, a.Tidy m →
    m.skeleton.Bound P.InstrAt → a.Honest P.InstrAt (Value.Within P.InstrAt) →
    Machine.perform env a budget = .done n result → n.program.PartOf P → EndsBound P n result

/-- A function that is one of the code starts at an instruction. -/
theorem instrAt_of_within {entry : Payload} (h : (Value.function entry).Within P.InstrAt) : P.InstrAt entry.val :=
  h.start (fun h0 => absurd (Code.Program.one_lt_of_instrAt h0) (by decide))
    fun h1 => absurd (Code.Program.one_lt_of_instrAt h1) (by decide)

/-- A step of a run, after the collection that may come first. -/
theorem Bound.step (h : m.Bound P.InstrAt) (hP : P.Readable) (hprogram : m.program.PartOf P) (hc : c.Fetches P)
    (env : Embedding W) : (leftBy (Machine.advance env c m.collectIfNeeded)).Bound P.InstrAt
      ∧ ∀ step m', Machine.advance env c m.collectIfNeeded = .ok step m' →
        StepFetches P step ∧ StepWithin P.InstrAt step :=
  h.collectIfNeeded.advance hP (by rwa [program_collectIfNeeded]) hc env

section Steps

variable {budget : Nat} {callee receiver : Value} {args : List Value} {result : Except Error Value}

theorem RunsBound.resume (ih : RunsBound env P budget) {offset slot : Nat} {next : Cursor} {r : Except Error Value}
    (hm : EndsBound P m r) (hnext : next.Fetches P) (h : Machine.resume env offset slot next budget m r = .done n result)
    (hpart : n.program.PartOf P) : EndsBound P n result := by
  cases r with
  | error e =>
    cases h
    exact ⟨hm.machine.leaveHost.noteFailure offset e, Result.within_error e⟩
  | ok v => exact ih.run (hm.machine.leaveHost.putResult slot (hm.result v rfl)) hnext h hpart

theorem RunsBound.run_succ (ih : RunsBound env P budget) (henv : env.Steady) (hP : P.Readable) (hm : m.Bound P.InstrAt)
    (hc : c.Fetches P) (h : Machine.run env m c (budget + 1) = .done n result) (hpart : n.program.PartOf P) :
    EndsBound P n result := by
  have hprogram : m.program.PartOf P := ((runsGrow henv (budget + 1)).run h).partOf.trans hpart
  obtain ⟨hleft, hstep⟩ := hm.step hP hprogram hc env
  rw [Machine.run_succ] at h
  split at h
  · cases h
    exact ⟨hm, Result.within_error _⟩
  · cases hadvance : advance env c m.collectIfNeeded with
    | error e m₁ =>
      rw [hadvance] at h hleft
      cases h
      exact ⟨hleft.noteFailure c.offset e, Result.within_error e⟩
    | ok step m₁ =>
      rw [hadvance] at h hleft
      obtain ⟨hfetches, hwithin⟩ := hstep step m₁ hadvance
      cases step with
      | finish v =>
        cases h
        exact ⟨hleft, Result.within_ok hwithin⟩
      | goOn next => exact ih.run hleft hfetches h hpart
      | host callee receiver args slot next =>
        obtain ⟨-, hreceiver, hargs⟩ := hwithin
        obtain ⟨m₂, r, hperform, hresume⟩ := Outcome.andThen_eq_done h
        have hlast : m₂.program.PartOf P := (grows_resume henv hresume).partOf.trans hpart
        exact ih.resume (ih.perform (tidy_callHost henv m₁ callee receiver args) hleft.places
          (honest_callHost henv hleft.functions hreceiver hargs) hperform hlast) hfetches hresume hpart

theorem RunsBound.execute_succ (ih : RunsBound env P budget) (henv : env.Steady) (hP : P.Readable)
    (hm : m.Bound P.InstrAt) {entry : Nat} (hentry : P.Enters entry) (hreceiver : receiver.Within P.InstrAt)
    (hargs : Values.Within P.InstrAt args)
    (h : Machine.execute env m entry receiver args (budget + 1) = .done n result) (hpart : n.program.PartOf P) :
    EndsBound P n result := by
  have hprogram : m.program.PartOf P := ((runsGrow henv (budget + 1)).execute h).partOf.trans hpart
  have henter := hm.enterExecution hreceiver hargs
  have hend {l : Machine W} {r : Except Error Value} (hl : EndsBound P l r)
      (hdone : endExecution m.depths m.receiver l r = .done n result) : EndsBound P n result := by
    cases hdone
    refine ⟨hl.machine.leaveExecution _ hm.functions.receiver _, ?_⟩
    obtain ⟨_, _, -, hresult⟩ := leaveExecution_eq l m.depths m.receiver r
    rcases hresult with hresult | hresult
    · rw [hresult]
      exact hl.result
    · rw [hresult]
      exact Result.within_ok Value.within_undefined
  rw [Machine.execute_succ] at h
  split at h
  · exact hend ⟨henter, Result.within_error _⟩ h
  · rename_i c hload
    obtain ⟨l, r, hrun, hdone⟩ := Outcome.andThen_eq_done h
    have hlast : l.program.PartOf P := by
      cases hdone
      rwa [program_leaveExecution] at hpart
    exact hend (ih.run henter (hP.load hprogram hentry hload) hrun hlast) hdone

theorem RunsBound.hostCall (ih : RunsBound env P budget) (henv : env.Steady) (hm : m.Bound P.InstrAt)
    (hcallee : callee.Within P.InstrAt) (hreceiver : receiver.Within P.InstrAt) (hargs : Values.Within P.InstrAt args)
    (h : Machine.hostCall env m callee receiver args budget = .done n result) (hpart : n.program.PartOf P) :
    EndsBound P n result := by
  obtain ⟨l, r, hperform, hdone⟩ := Outcome.andThen_eq_done h
  cases hdone
  have henter := hm.enterHostCall hcallee hreceiver hargs
  have hends := ih.perform (tidy_callHost henv (m.enterHostCall callee receiver args) callee receiver args) henter.places
    (honest_callHost henv henter.functions hreceiver hargs) hperform hpart
  exact ⟨hends.machine.leaveHostCall _ hm.functions.receiver, hends.result⟩

theorem RunsBound.callValue_succ (ih : RunsBound env P budget) (henv : env.Steady) (hm : m.Bound P.InstrAt)
    (hcallee : callee.Within P.InstrAt) (hreceiver : receiver.Within P.InstrAt) (hargs : Values.Within P.InstrAt args)
    (h : Machine.callValue env m callee receiver args (budget + 1) = .done n result) (hpart : n.program.PartOf P) :
    EndsBound P n result := by
  rw [Machine.callValue_succ] at h
  split at h
  · exact ih.execute hm (.inl (instrAt_of_within hcallee)) hreceiver hargs h hpart
  · exact ih.hostCall henv hm hcallee hreceiver hargs h hpart
  · exact ih.hostCall henv hm hcallee hreceiver hargs h hpart
  · cases h
    exact ⟨hm, Result.within_error _⟩

/-- A callee that is there is called. -/
theorem RunsBound.callCallee (ih : RunsBound env P budget) {callee : Callee} (hknown : callee.Known P)
    (hm : m.Bound P.InstrAt) (hcallee : callee.Within P.InstrAt) (hreceiver : receiver.Within P.InstrAt)
    (hargs : Values.Within P.InstrAt args) (h : Machine.callCallee env m callee receiver args budget = .done n result)
    (hpart : n.program.PartOf P) : EndsBound P n result := by
  cases callee with
  | code entry => exact ih.execute hm (.inr hknown) hreceiver hargs h hpart
  | value v => exact ih.callValue hm hcallee hreceiver hargs h hpart

theorem RunsBound.perform_succ (ih : RunsBound env P budget) (henv : env.Steady) {a : Action W Value} (htidy : a.Tidy m)
    (hplaces : m.skeleton.Bound P.InstrAt) (hhonest : a.Honest P.InstrAt (Value.Within P.InstrAt))
    (h : Machine.perform env a (budget + 1) = .done n result) (hpart : n.program.PartOf P) : EndsBound P n result := by
  cases a with
  | done m₁ r =>
    cases h
    exact ⟨⟨hhonest.1, htidy.toKept.skeleton ▸ hplaces⟩, hhonest.2⟩
  | needsFile path => cases h
  | call m₁ callee receiver args next =>
    obtain ⟨honward, hknown, hnext⟩ := htidy
    obtain ⟨⟨hwithin, hcallee, hreceiver, hargs⟩, hhonest⟩ := hhonest
    rw [perform_call] at h
    obtain ⟨m₂, r, hcall, hrest⟩ := Outcome.andThen_eq_done h
    have hgrows := (runsGrow henv budget).callCallee hcall
    have htidy' := hnext m₂ r hgrows
    have hlast : m₂.program.PartOf P := ((runsGrow henv budget).perform htidy' hrest).partOf.trans hpart
    have hends := ih.callCallee (hknown.of_partOf (hgrows.partOf.trans hlast))
      ⟨hwithin, honward.toKept.skeleton ▸ hplaces⟩ hcallee hreceiver hargs hcall hlast
    exact ih.perform htidy' hends.machine.places (hhonest m₂ r hends.machine.functions hends.result) hrest hpart

end Steps

theorem runsBound (henv : env.Steady) (hP : P.Readable) (budget : Nat) : RunsBound env P budget := by
  induction budget with
  | zero =>
    exact ⟨(fun _ _ h => by cases h), (fun _ _ _ _ h => by cases h), (fun _ _ _ _ h => by cases h),
      fun _ _ _ h => by cases h⟩
  | succ budget ih =>
    exact ⟨fun hm hc h hp => ih.run_succ henv hP hm hc h hp,
      fun hm hs hr ha h hp => ih.execute_succ henv hP hm hs hr ha h hp,
      fun hm hc hr ha h hp => ih.callValue_succ henv hm hc hr ha h hp,
      fun ht hs hh h hp => ih.perform_succ henv ht hs hh h hp⟩

end Machine

/-! ## Sessions -/

/-- A new machine is in no call and no loop. -/
theorem Machine.bound_new {W : Type} {S : Nat → Prop} {m : Machine W} {o : Options} {output : Output} {world : W}
    (h : new o output world = .ok m) : m.skeleton.Bound S := by
  have hbare : (bare o output world).skeleton.Bound S :=
    ⟨fun _ hr => absurd hr List.not_mem_nil, fun _ hl => absurd hl List.not_mem_nil⟩
  have hleft := bound_of_parallel hbare (quiet_of_parallel (f := fun _ u => u) fun _ => parallel_install)
    (f := fun _ _ u => u) fun _ _ _ => parallel_install
  unfold new at h
  split at h
  · rename_i heq
    rw [heq] at hleft
    cases h
    exact hleft
  · cases h

namespace Activity

variable {W : Type} {env : Embedding W} {t t' : Activity W} {P : Program}

/-- What is known of activities over a program that reads as instructions. -/
def Bound (P : Program) : Activity W → Prop
  | running m c _ => m.Bound P.InstrAt ∧ c.Fetches P
  | execution m start receiver args =>
    m.Bound P.InstrAt ∧ P.Enters start ∧ receiver.Within P.InstrAt ∧ Values.Within P.InstrAt args
  | call m callee receiver args =>
    m.Bound P.InstrAt ∧ callee.Within P.InstrAt ∧ receiver.Within P.InstrAt ∧ Values.Within P.InstrAt args
  | action m a => m.skeleton.Bound P.InstrAt ∧ a.Honest P.InstrAt (Value.Within P.InstrAt)

/-- What is known of an activity is known of what comes next, as long as the code is part of the program. -/
theorem Next.bound (henv : env.Steady) (hP : P.Readable) (h : Next env t t') (ht : t.Tidy) (hbound : t.Bound P)
    (hpart : t'.machine.program.PartOf P) : t'.Bound P := by
  have hprogram : t.machine.program.PartOf P := (h.grows henv ht).1.partOf.trans hpart
  cases h with
  | @step m m' c c' entries hgo h =>
    obtain ⟨hleft, hstep⟩ := hbound.1.step hP hprogram hbound.2 env
    rw [h] at hleft
    exact ⟨hleft, (hstep _ _ h).1⟩
  | @host m m' c c' entries callee receiver args slot hgo h =>
    obtain ⟨hleft, hstep⟩ := hbound.1.step hP hprogram hbound.2 env
    rw [h] at hleft
    obtain ⟨-, -, hreceiver, hargs⟩ := hstep _ _ h
    exact ⟨hleft.places, Machine.honest_callHost henv hleft.functions hreceiver hargs⟩
  | @resume m m' n c c' entries callee receiver v args slot budget hgo h hdone =>
    obtain ⟨hleft, hstep⟩ := hbound.1.step hP hprogram hbound.2 env
    rw [h] at hleft
    obtain ⟨hfetches, -, hreceiver, hargs⟩ := hstep _ _ h
    have hlast : n.program.PartOf P := by
      rwa [← show (n.leaveHost.putResult slot v).program = n.program from Machine.program_leaveHost n]
    have hcall := (Machine.runsBound henv hP budget).perform (Machine.tidy_callHost henv m' callee receiver args)
      hleft.places (Machine.honest_callHost henv hleft.functions hreceiver hargs) hdone hlast
    exact ⟨hcall.machine.leaveHost.putResult slot (hcall.result v rfl), hfetches⟩
  | enter hload =>
    obtain ⟨hm, hentry, hreceiver, hargs⟩ := hbound
    exact ⟨hm.enterExecution hreceiver hargs, hP.load hprogram hentry hload⟩
  | function =>
    obtain ⟨hm, hcallee, hreceiver, hargs⟩ := hbound
    exact ⟨hm, .inl (Machine.instrAt_of_within hcallee), hreceiver, hargs⟩
  | outside h =>
    obtain ⟨hm, hcallee, hreceiver, hargs⟩ := hbound
    have henter := hm.enterHostCall hcallee hreceiver hargs
    exact ⟨henter.places, Machine.honest_callHost henv henter.functions hreceiver hargs⟩
  | code =>
    obtain ⟨hplaces, ⟨hwithin, -, hreceiver, hargs⟩, -⟩ := hbound
    obtain ⟨unit, hunit⟩ := ht.2.1
    exact ⟨⟨hwithin, ht.1.toKept.skeleton ▸ hplaces⟩, .inr ⟨unit, hunit.of_partOf hpart⟩, hreceiver, hargs⟩
  | value =>
    obtain ⟨hplaces, ⟨hwithin, hcallee, hreceiver, hargs⟩, -⟩ := hbound
    exact ⟨⟨hwithin, ht.1.toKept.skeleton ▸ hplaces⟩, hcallee, hreceiver, hargs⟩
  | @result m m' n callee receiver args next budget r hdone =>
    obtain ⟨hplaces, ⟨hwithin, hcallee, hreceiver, hargs⟩, hnext⟩ := hbound
    have hends := (Machine.runsBound henv hP budget).callCallee (ht.2.1.of_partOf
      (((Machine.runsGrow henv budget).callCallee hdone).partOf.trans hpart))
      ⟨hwithin, ht.1.toKept.skeleton ▸ hplaces⟩ hcallee hreceiver hargs hdone hpart
    exact ⟨hends.machine.places, hnext n r hends.machine.functions hends.result⟩

theorem Leads.bound (henv : env.Steady) (hP : P.Readable) (h : Leads env t t') (ht : t.Tidy) (hbound : t.Bound P)
    (hpart : t'.machine.program.PartOf P) : t'.Bound P := by
  induction h with
  | refl => exact hbound
  | tail hleads hnext ih =>
    have htidy := (Leads.grows henv hleads ht).2
    exact hnext.bound henv hP htidy (ih ((hnext.grows henv htidy).1.partOf.trans hpart)) hpart

/-- All that goes on in a session is bound for instructions of its code. -/
theorem Occurs.bound (h : t.Occurs env) (henv : env.Steady) (hP : P.Readable)
    (hpart : t.machine.program.PartOf P) : t.Bound P := by
  obtain ⟨m, a, hopens, hleads⟩ := h
  obtain ⟨o, output, world, hnew⟩ := hopens.new
  exact hleads.bound henv hP hopens.tidy ⟨Machine.bound_new hnew, hopens.honest _⟩ hpart

end Activity

namespace Machine

variable {W : Type} {env : Embedding W}

/-- A unit that was compiled reads as instructions from the start of its code to its table of lines, the last of
which is an exit and whose targets are all instructions of the unit, and it is listed with a line for each of them.
Wherever a session reads an instruction in code that was compiled, there stands the header of a unit or one of its
instructions, which is what the listing of all code shows there. -/
theorem fetches_listed (henv : env.Steady) :
    (∀ {filename source : String} {width : Nat} {unit : Array UInt8}, Code.compile filename source width = .ok unit →
      ∃ fs header lines, Decodes unit fs ∧ Header.read? unit = some header
        ∧ Code.Listing.ofUnit? unit = some (Code.Listing.text (header.line unit 0 :: lines))
        ∧ List.Forall₂ (Fetch.Prints 0) fs lines)
    ∧ ∀ {m : Machine W} {c : Cursor} {entries : List Depths}, (Activity.running m c entries).Occurs env →
      m.program.Sourced → m.program.size ≤ UInt64.size →
      ∃ fs f header lines all, Decodes c.code fs ∧ (c.pos = 0 ∧ f.instr = .header ∨ f ∈ fs)
        ∧ f.pos = c.pos ∧ Decoded.read c.code c.pos = .instr f.instr f.firstEnd f.next
        ∧ m.program.lines? = some all ∧ Code.Listing.ofProgram? m.program = some (Code.Listing.text all.flatten)
        ∧ Header.read? c.code = some header ∧ (header.line c.code c.base :: lines) ∈ all
        ∧ List.Forall₂ (Fetch.Prints c.base) fs lines := by
  refine ⟨fun {filename source width unit} hcompile => ?_, fun {m c entries} hoccurs hsourced hsmall => ?_⟩
  · obtain ⟨hsize, fs, hdecodes⟩ := Code.decodes_of_compile hcompile
    have hword : 0 + unit.size ≤ UInt64.size := by
      rw [Nat.zero_add]
      exact Nat.le_trans (Nat.le_of_lt hsize) (by decide)
    obtain ⟨header, lines, hheader, hlines, hprints⟩ := hdecodes.lines? hword
    refine ⟨fs, header, lines, hdecodes, hheader, ?_, hprints⟩
    rw [Code.Listing.ofUnit?, hlines]
    rfl
  · have hP : m.program.Readable := Code.Program.readable_of_sourced (hoccurs.committed henv) hsourced hsmall
    obtain ⟨-, hc⟩ := hoccurs.bound henv hP (.refl _)
    obtain ⟨fs, f, hdecodes, hpos, hread, hf, -⟩ := exists_fetch hc
    obtain ⟨all, hall, hunits⟩ := hP.exists_lines
    obtain ⟨header, lines, hheader, hmem, hprints⟩ := hunits hc.has hdecodes
    refine ⟨fs, f, header, lines, all, hdecodes, hf, hpos, hread, hall, ?_, hheader, hmem, hprints⟩
    rw [Code.Program.ofProgram?_eq, hall]
    rfl

theorem fetches_listed_surviving : ∃ (unit : Array UInt8) (m : Machine Unit) (c : Cursor) (entries : List Depths),
    guarding.Steady ∧ Code.compile "t.js" surviving 1 = .ok unit ∧ (Activity.running m c entries).Occurs guarding
      ∧ m.program.Sourced ∧ m.program.size ≤ UInt64.size ∧ (∃ fs, Decodes unit fs)
      ∧ ∃ fs f, Decodes c.code fs ∧ (c.pos = 0 ∧ f.instr = .header ∨ f ∈ fs)
        ∧ Decoded.read c.code c.pos = .instr f.instr f.firstEnd f.next := by
  have hcheck : (surviving? 18).any survivingRun = true := by decide +kernel
  obtain ⟨t, hoccurs, hrun⟩ := occurs_of_surviving hcheck
  unfold survivingRun at hrun
  split at hrun
  · rename_i m c entry entries
    rw [Bool.and_eq_true, beq_iff_eq] at hrun
    obtain ⟨hunit, hhas⟩ := hrun
    obtain ⟨hplain, hsmall⟩ := plain_of_hasSurviving hhas
    have hsourced : m.program.Sourced := fun part hpart =>
      let ⟨filename, source, width, _, hcompile, _⟩ := hplain part hpart
      ⟨filename, source, width, hcompile⟩
    cases hcompile : Code.compile "t.js" surviving 1 with
    | error e =>
      rw [hcompile] at hunit
      cases hunit
    | ok unit =>
      obtain ⟨hunits, hruns⟩ := fetches_listed guarding_steady
      obtain ⟨fs', _, _, hdecodes', -⟩ := hunits hcompile
      obtain ⟨fs, f, _, _, _, hdecodes, hf, -, hread, -⟩ := hruns hoccurs hsourced hsmall
      exact ⟨unit, m, c, entry :: entries, guarding_steady, rfl, hoccurs, hsourced, hsmall, ⟨fs', hdecodes'⟩, fs, f,
        hdecodes, hf, hread⟩
  · cases hrun

end Machine

end ScriptEngine
