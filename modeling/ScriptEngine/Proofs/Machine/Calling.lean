import ScriptEngine.Proofs.Machine.Departures
/-!
Calls and functions.

A function is a value that its place makes (`Means.function`), and a call of one is evaluated as its code runs: the
code of the program at hand along its tree, and other code by the machine itself (`callMeans_calls`). What is behind a
call comes after it, whether it was of code or of a function outside of the code (`Means.call`).
-/

namespace ScriptEngine

open Code (Item Op Program Stands Instr Decoded)

/-! ## Functions -/

namespace Means

open Machine

variable {W : Type} {env : Embedding W} {a : Piece W} {xs : List Item}

theorem function (h : Means env anyOp a xs noOp) : Means env anyOp (.function a) (Code.Shape.function xs) unread := by
  have hlength : (Code.Shape.function xs).length = xs.length + 2 := by
    simp only [Code.Shape.function, List.length_cons, List.length_append, List.length_nil]
  refine ⟨?_, fun {g s S bound budget i m previous q} hs hholds hq hbudget _ hm => ?_, fun {g i} hholds f hf => ?_⟩
  · rw [hlength, ← h.size]
    rfl
  · rw [hlength] at hq
    show _ = ((s.step i (pure ()) (fun _ => .through) m budget).andThen
      (s.step (i + 1 + a.size) (Machine.ofExcept (Piece.functionAt (s.offset (i + 1))) >>= push)
        fun _ => .through)).followed q
    rw [Exit.followed_andThen]
    refine jumped hs.offset hholds.head hm fun {n rest} hlt hn => ?_
    rw [h.size]
    have hitem : g.items[i + 1 + xs.length]? = some (.func xs.length) := hholds.tail.right.head
    obtain ⟨back, firstEnd, hread, hback⟩ := g.stands.read hitem
    rw [Nat.add_sub_cancel] at hback
    have hstart : functionBack (g.cursor (i + 1 + xs.length) .jmp).offset back
        = Piece.functionAt (s.offset (i + 1)) := by
      have hoffset : (g.cursor (i + 1 + xs.length) .jmp).offset = g.offset (i + 1) + back := by
        show g.base + g.place (i + 1 + xs.length) = g.base + g.place (i + 1) + back
        omega
      rw [functionBack, hoffset, if_pos (Nat.le_add_left _ _), Nat.add_sub_cancel, hs.offset]
      rfl
    have hcarry : carryOut env (g.cursor (i + 1 + xs.length) .jmp) (.pushFunc back) firstEnd
          (g.place (i + 1 + xs.length + 1))
        = (Machine.ofExcept (Piece.functionAt (s.offset (i + 1))) >>= push) >>= fun _ =>
            pure (.goOn (g.place (i + 1 + xs.length + 1))) := by
      rw [← hstart, bind_assoc]
      rfl
    refine run_step hs.offset rfl hread hcarry fun {_ l budget'} hrest _ hdone => ?_
    have hl := hn.carried hdone (sameFooting_of_carried rfl rfl hdone)
    show Machine.run env l (g.cursor (i + 1 + xs.length + 1) _) budget' = q.through l budget'
    rw [show i + 1 + xs.length + 1 = i + (xs.length + 2) by omega]
    exact hq.through (by omega) (unread_of rfl) hl
  · rcases List.mem_cons.mp hf with rfl | hf
    · have hroom := hholds.room
      rw [hlength] at hroom
      refine ⟨by omega, fun {s S bound budget m previous q} hs hown hback hbudget hm => ?_⟩
      refine h.run hs hholds.tail.left ⟨fun _ hprevious => hprevious.elim, fun hloop => ?_, hback⟩ hbudget trivial hm
      rw [hown] at hloop
      cases hloop
    · exact h.functions hholds.tail.left f hf

end Means

/-! ## Calls of functions outside of the code -/

section Hosts

open Machine

variable {W : Type} {env : Embedding W} {g : Ground} {S : Standing} {m n : Machine W}

/-- A flow that goes on at a place behind a function outside of the code. -/
def Flow.resumingAt (pos : Nat) : Flow → Flow
  | .host callee receiver args slot _ => .host callee receiver args slot pos
  | flow => flow

theorem callPending_resumingAt (site pos pos' : Nat) :
    (callPending site pos : Work W Flow) = callPending site pos' >>= fun flow => pure (flow.resumingAt pos) := by
  rw [callPending_eq_bind, callPending_eq_bind, bind_assoc]
  refine congrArg _ (funext fun call => ?_)
  rw [bind_assoc]
  refine congrArg _ (funext fun callee => ?_)
  cases callee <;> rfl

/-- A call that left a function outside of the code is the call that it was. -/
theorem Standing.Of.answered (henv : env.Steady) (hm : S.Of g m) {site slot budget : Nat} (hcalls : Calls site m n)
    (hprogram : n.program = m.program) {callee receiver v : Value} {args : List Value} {l : Machine W}
    {result : Except Error Value}
    (hperform : perform env (callHost env n callee receiver args) budget = .done l result) :
    S.Of g (l.leaveHost.putResult slot v) := by
  have htidy := tidy_callHost henv n callee receiver args
  have hsame := hcalls.leaveHost ((runsFoot henv budget).perform htidy hperform)
  have hgrows := (runsGrow henv budget).perform htidy hperform
  refine hm.next ⟨hsame.returns, hsame.loops⟩ ?_
  rw [show (l.leaveHost.putResult slot v).program = l.program from program_leaveHost l, ← hprogram]
  exact hgrows

end Hosts

/-! ## Calls of code -/

section Calls

open Machine

variable {W : Type} {env : Embedding W} {g : Ground} {S : Standing} {q : Sequel W} {m n : Machine W} {bound : Nat}

/-- A call that is left goes on behind it. -/
theorem Exit.followed_caught (x : Exit W) (q : Sequel W) :
    x.caught.followed q = x.followed { q with returned := q.through } := by
  cases x <;> rfl

/-- The standing of a call that a call makes. -/
def Standing.called (S : Standing) (frame : Return) : Standing :=
  ⟨frame, S.frame :: S.callers, [], S.own ++ S.outer⟩

theorem Standing.Of.called (hm : S.Of g m) {site : Nat} (hcalls : Calls site m n) (hprogram : n.program = m.program) :
    ∃ frame : Return, frame.callSite = some site ∧ (S.called frame).Of g n := by
  obtain ⟨frame, hsite, hfloor, hreturns⟩ := hcalls.returns
  refine ⟨frame, hsite, ⟨?_, ?_, ?_, hprogram ▸ hm.committed, hprogram ▸ hm.has⟩⟩
  · rw [hreturns, hm.returns]
    rfl
  · rw [hcalls.loops, hm.loops]
    rfl
  · show frame.loops = (S.own ++ S.outer).length
    rw [hfloor, hm.loops]

theorem Standing.Left.of {frame : Return} (h : (S.called frame).Left g m) (hfloor : S.frame.loops = S.outer.length) :
    S.Of g m :=
  ⟨h.returns, h.loops, hfloor, h.committed, h.has⟩

/-- A jump to an offset for a call. -/
theorem proceed_enter (hcommitted : n.program.Committed) (hhas : n.program.Has g.base g.unit) {i start budget : Nat}
    {previous : Op} :
    proceed env (g.offset i) budget (Machine.settle (g.cursor i previous) .call (.jump start) n)
      = enter env n (g.offset i) start budget := by
  simp only [Machine.settle, bind_eq, inspect, hcommitted.goTo_eq_load (g.cursor_lies hhas i previous), enter]
  cases Cursor.load n.program start .call <;> rfl

namespace Means

theorem call (henv : env.Steady) : Means env anyOp (.call env : Piece W) [.plain .call] unread := by
  refine ⟨rfl, fun {g s S bound budget i m previous q} hs hholds hq hbudget _ hm => ?_,
    fun _ _ hf => absurd hf List.not_mem_nil⟩
  obtain ⟨firstEnd, hread⟩ := g.stands.read hholds.head
  have hsite : (g.cursor i previous).offset = s.offset i := by
    rw [hs.offset]
    rfl
  have hcarry : carryOut env (g.cursor i previous) .call firstEnd (g.place (i + 1))
      = callPending (s.offset i) 0 >>= fun flow => pure (flow.resumingAt (g.place (i + 1))) := by
    rw [← callPending_resumingAt, ← hsite]
    rfl
  refine run_step hs.offset rfl hread hcarry fun {flow n rest} hrest hpending hdone => ?_
  have hprogram := program_of_carried hdone
  have hcalled := called_callPending (s.offset i) 0 m.collectIfNeeded
  rw [hpending] at hcalled
  have hroom := hholds.room
  have hm' := hm.collectIfNeeded
  have hprogram' : n.program = m.collectIfNeeded.program := by rw [hprogram, program_collectIfNeeded]
  cases flow with
  | jump start =>
    obtain ⟨frame, hsite', hn⟩ := hm'.called hcalled hprogram'
    show proceed env (g.offset i) rest (Machine.settle (g.cursor i previous) .call (.jump start) n)
      = (s.call (s.offset i) start n rest).caught.followed q
    rw [proceed_enter hn.committed hn.has, Exit.followed_caught, ← hs.offset]
    refine hs.call (s.offset i) start (by omega) rfl hsite' hn fun site hcaller => ?_
    have hsame := Option.some.inj (hsite'.symm.trans hcaller)
    refine ⟨i + 1, hroom, ?_, fun hlt hprevious hleft => hq.through (by omega) hprevious (hleft.of hm.floor)⟩
    rw [← hsame, hs.offset, Ground.offset, Ground.offset, g.stands.place_behind_call hholds.head, Nat.add_assoc]
  | host callee receiver args slot pos =>
    show ((perform env (callHost env n callee receiver args) rest).andThen
        (resume env (g.cursor i previous).offset slot (g.cursor (i + 1) .call) rest))
      = (Exit.answered (s.offset i) slot rest (perform env (callHost env n callee receiver args) rest)).followed q
    rw [hsite]
    cases hperform : perform env (callHost env n callee receiver args) rest with
    | outOfBudget | needsFile path => rfl
    | done l result =>
      cases result with
      | error e => rfl
      | ok v => exact hq.through (by omega) (unread_of rfl) (hm'.answered henv hcalled.1 hprogram' hperform)
  | goOn pos | finish v => exact hcalled.elim

end Means

/-- The place where a step goes on. -/
def Machine.Step.next? : Step → Option Cursor
  | .goOn c | .host _ _ _ _ c => some c
  | .finish _ => none

/-- A step from a place in the code goes on at a place in the code. -/
theorem lies_of_advance (hcommitted : m.program.Committed) {c next : Cursor} (hc : c.Lies m.program) {step : Step}
    (hdone : advance env c m = .ok step n) (hnext : step.next? = some next) : next.Lies n.program := by
  have hquiet := (quiet_advance env c m).1
  rw [hdone] at hquiet
  have hprogram : n.program = m.program := hquiet
  rw [hprogram]
  have hmoved (pos : Nat) (op : Op) : Cursor.Lies m.program { c with pos := pos, previous := op } :=
    ⟨hc.has, hc.codeStart⟩
  cases hread : Decoded.read c.code c.pos with
  | instr i firstEnd behind =>
    rw [advance_eq env hread] at hdone
    obtain ⟨flow, m₁, -, hsettle⟩ := bind_eq_ok.mp hdone
    cases flow with
    | goOn pos =>
      cases hsettle
      cases hnext
      exact hmoved _ _
    | finish v =>
      cases hsettle
      cases hnext
    | host callee receiver args slot pos =>
      cases hsettle
      cases hnext
      exact hmoved _ _
    | jump offset =>
      simp only [Machine.settle, bind_eq, inspect] at hsettle
      cases hgo : c.goTo m₁.program offset i.op with
      | error e =>
        rw [hgo] at hsettle
        cases hsettle
      | ok c' =>
        rw [hgo] at hsettle
        cases hsettle
        cases hnext
        rw [hprogram, hcommitted.goTo_eq_load hc] at hgo
        exact hcommitted.lies_of_load hgo
  | _ =>
    unfold advance at hdone
    rw [hread] at hdone
    cases hdone

/-- Code that the machine runs by itself comes to where the call goes back to, or ends the run. -/
theorem untilBack_eq (henv : env.Steady) {budget : Nat} (hback : GoesBack env g S budget q.returned)
    (hm : InCall S.frame S.callers S.outer m) (hcommitted : m.program.Committed) (hhas : m.program.Has g.base g.unit)
    {c : Cursor} (hc : c.Lies m.program) :
    run env m c budget = (Evaluation.untilBack env (S.callers.length + 1) budget m c).followed q := by
  induction budget generalizing m c with
  | zero => rfl
  | succ budget ih =>
    have hback' := hback.mono (Nat.le_succ budget)
    have hm' := hm.of_sameFooting (sameFooting_collectIfNeeded m)
    have hcollected : m.collectIfNeeded.program = m.program := program_collectIfNeeded m
    have hstep := hm'.advance env c
    have hsame := program_step env c m
    have hlies {step : Step} {n : Machine W} {next : Cursor} (hdone : advance env c m.collectIfNeeded = .ok step n)
        (hnext : step.next? = some next) : next.Lies n.program :=
      lies_of_advance (hcollected ▸ hcommitted) (hcollected ▸ hc) hdone hnext
    rw [run_succ, Evaluation.untilBack]
    split
    · rfl
    · cases hadvance : advance env c m.collectIfNeeded with
      | error e n => rfl
      | ok step n =>
        rw [hadvance] at hstep hsame
        have hsame : n.program = m.program := hsame
        have hcommitted' : n.program.Committed := hsame ▸ hcommitted
        have hhas' : n.program.Has g.base g.unit := hsame ▸ hhas
        cases step with
        | finish v => rfl
        | goOn next =>
          dsimp only [proceed]
          rcases hstep with hinside | ⟨hreturns, hloops, site, op, hop, hsite, hgo⟩
          · have hcalls := hinside.lt_size
            rw [if_neg (by omega)]
            exact ih hback' hinside hcommitted' hhas' (hlies hadvance rfl)
          · obtain ⟨j, hj, hoffset, hrun⟩ := hback site hsite
            have hcursor : next = g.cursor j op := by
              rw [hoffset, g.goTo hcommitted' hhas' (hsame ▸ hc) hj] at hgo
              exact (Except.ok.inj hgo).symm
            rw [if_pos (by rw [size_frames, hreturns]; exact Nat.lt_succ_self _), hcursor]
            exact hrun (Nat.lt_succ_self budget) hop ⟨hreturns, hloops, hcommitted', hhas'⟩
        | host callee receiver args slot next =>
          obtain ⟨site, hcalls⟩ := hstep
          dsimp only [proceed]
          cases hperform : perform env (callHost env n callee receiver args) budget with
          | outOfBudget | needsFile path => rfl
          | done l result =>
            cases result with
            | error e => rfl
            | ok v =>
              have htidy := tidy_callHost henv n callee receiver args
              have hleft := hcalls.leaveHost ((runsFoot henv budget).perform htidy hperform)
              have hgrows := (runsGrow henv budget).perform htidy hperform
              have hput : l.leaveHost.SameFooting (l.leaveHost.putResult slot v) := .of_eq rfl rfl
              have hkept : (l.leaveHost.putResult slot v).program = l.program := program_leaveHost l
              exact ih hback' ((hm'.of_sameFooting hleft).of_sameFooting hput)
                (hkept ▸ hgrows.committed hcommitted') (hkept ▸ hhas'.of_partOf hgrows.partOf)
                (hkept ▸ (hlies hadvance rfl).grows hgrows)

/-- What calls are evaluated as is what their code runs as. -/
theorem callMeans_calls (henv : env.Steady) {functions : List (Nat × (Setting W → Doing W))}
    (hfunctions : ∀ f ∈ functions, FunctionMeans env g f) (depth : Nat) :
    CallMeans env g depth (Evaluation.calls env g.offset functions depth) := by
  induction depth with
  | zero => exact fun _ _ _ _ _ _ hlt => absurd hlt (Nat.not_lt_zero _)
  | succ depth ih =>
    intro site start m budget S q hlt hown hsite hm hback
    rw [Evaluation.calls]
    unfold enter
    cases hfind : functions.find? fun f => g.offset f.1 = start with
    | some f =>
      have hstart : g.offset f.1 = start := by simpa using List.find?_some hfind
      obtain ⟨hinside, hrun⟩ := hfunctions f (List.mem_of_find?_eq_some hfind)
      rw [← hstart, g.load hm.committed hm.has hinside]
      exact hrun ⟨rfl, ih.mono (by omega)⟩ hown hback (Nat.le_refl budget) hm
    | none =>
      dsimp only [Evaluation.elsewhere]
      cases hload : Cursor.load m.program start .call with
      | error e => rfl
      | ok c =>
        have hcalls : m.frames.size = S.callers.length + 1 := by
          rw [size_frames, hm.returns, List.length_cons]
        have hin : InCall S.frame S.callers S.outer m :=
          ⟨⟨[], hm.returns, fun _ h => absurd h List.not_mem_nil⟩, hm.loops ▸ List.suffix_append _ _, hm.floor⟩
        rw [hcalls]
        exact untilBack_eq henv hback hin hm.committed hm.has (hm.committed.lies_of_load hload)

end Calls

end ScriptEngine
