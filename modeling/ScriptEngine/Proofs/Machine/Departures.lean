import ScriptEngine.Proofs.Machine.Meanings
/-!
Leaving a piece of a program.

A piece that is not left at its end goes to a target of the innermost loop, back to a caller, or ends the run. What
follows it there is what the evaluation comes to (`Means.break`, `Means.continue`, `Means.return`, `Means.exit`),
and so the rounds of a loop follow one another (`Means.loop`, `Means.countingLoop`).
-/

namespace ScriptEngine

open Code (Item Op Program Stands Instr Decoded)

/-! ## Jumps to offsets -/

section Jumps

open Machine

variable {W : Type} {env : Embedding W} {g : Ground} {S : Standing} {m n : Machine W} {c c' : Cursor}
  {ins : Instr} {flow : Flow} {firstEnd next target offset budget i j : Nat} {op previous : Op}

theorem program_of_carried (hdone : carryOut env c ins firstEnd next m.collectIfNeeded = .ok flow n) :
    n.program = m.program := by
  have hprogram := (quiet_carryOut env c ins firstEnd next m.collectIfNeeded).1
  rw [hdone] at hprogram
  exact hprogram.trans (program_collectIfNeeded m)

/-- Going to an item of the ground from a place of it. -/
theorem proceed_jump (hcommitted : n.program.Committed) (hhas : n.program.Has g.base g.unit)
    (htarget : target = g.offset j) (hj : j < g.items.length) :
    proceed env offset budget (Machine.settle (g.cursor i previous) op (.jump target) n)
      = Machine.run env n (g.cursor j op) budget := by
  have hgo : (g.cursor i previous).goTo n.program target op = .ok (g.cursor j op) := by
    rw [htarget]
    exact g.goTo hcommitted hhas (g.cursor_lies hhas i previous) hj
  simp only [Machine.settle, bind_eq, inspect, hgo]
  rfl

/-! ## Loops -/

/-- A jump out of a loop is one out of a loop of the call. -/
theorem Standing.Of.currentLoop (hm : S.Of g m) {word : String} {loop : LoopFrame}
    (hloop : currentLoop word m = .ok loop n) :
    n = m ∧ ∃ rest, S.own = loop :: rest ∧ m.loops.pop.toList.reverse = rest ++ S.outer := by
  rcases currentLoop_cases hm.returns word with ⟨-, herror⟩ | ⟨loop', own, hloops, hfloor, hok⟩
  · rw [herror] at hloop
    cases hloop
  · rw [hok] at hloop
    cases hloop
    have hlist : m.loops.toList.reverse = loop :: own := hloops
    have hpop : m.loops.pop.toList.reverse = own := by
      rw [Array.toList_pop, ← List.tail_reverse, hlist]
      rfl
    rw [hm.loops] at hloops
    cases hown : S.own with
    | nil =>
      rw [hown, List.nil_append] at hloops
      rw [hm.floor, hloops, List.length_cons] at hfloor
      omega
    | cons first rest =>
      rw [hown, List.cons_append, List.cons.injEq] at hloops
      obtain ⟨rfl, rfl⟩ := hloops
      exact ⟨rfl, rest, rfl, hpop⟩

theorem Standing.Of.breakLoop (hm : S.Of g m) (hdone : breakLoop m = .ok flow n) :
    ∃ loop rest, S.own = loop :: rest ∧ flow = .jump loop.breakTarget ∧ { S with own := rest }.Of g n := by
  unfold Machine.breakLoop at hdone
  obtain ⟨loop, m₁, hloop, hrest⟩ := bind_eq_ok.mp hdone
  obtain ⟨rfl, rest, hown, hpop⟩ := hm.currentLoop hloop
  cases hrest
  exact ⟨loop, rest, hown, rfl, ⟨hm.returns, hpop, hm.floor, hm.committed, hm.has⟩⟩

theorem Standing.Of.continueLoop (hm : S.Of g m) (hdone : continueLoop m = .ok flow n) :
    ∃ loop rest, S.own = loop :: rest ∧ flow = .jump loop.continueTarget ∧ S.Of g n := by
  unfold Machine.continueLoop at hdone
  obtain ⟨loop, m₁, hloop, hrest⟩ := bind_eq_ok.mp hdone
  obtain ⟨rfl, rest, hown, -⟩ := hm.currentLoop hloop
  cases hrest
  exact ⟨loop, rest, hown, rfl, ⟨hm.returns, hm.loops, hm.floor, hm.committed, hm.has⟩⟩

theorem Standing.Of.openLoop (hm : S.Of g m) {exit again : Nat} (hdone : openLoop exit again m = .ok () n) :
    { S with own := ⟨m.scopes.size, exit, again⟩ :: S.own }.Of g n := by
  cases hdone
  refine ⟨hm.returns, ?_, hm.floor, hm.committed, hm.has⟩
  show (m.loops.push _).toList.reverse = _
  rw [Array.toList_push, List.reverse_append]
  exact congrArg (_ :: ·) hm.loops

/-- Going back from a call, or ending the execution that the call started. -/
theorem Standing.Of.returnFromCall (hm : S.Of g m) (hdone : returnFromCall m = .ok flow n) :
    (∃ v, flow = .finish v) ∨ ∃ site, S.frame.callSite = some site ∧ flow = .jump (site + 1) ∧
      n.skeleton.returns = S.callers ∧ n.skeleton.loops = S.outer := by
  have hback := goneBack_returnFromCall m
  rw [hdone] at hback
  obtain ⟨frame, callers, hreturns, hn, hnloops, hflow⟩ := hback
  rw [hm.returns, List.cons.injEq] at hreturns
  obtain ⟨rfl, rfl⟩ := hreturns
  rcases hflow with hfinish | ⟨site, hsite, hjump⟩
  · exact .inl hfinish
  · refine .inr ⟨site, hsite, hjump, hn, ?_⟩
    rw [hnloops, hm.loops, hm.floor, List.length_append, Nat.add_sub_cancel, List.drop_left]

end Jumps

namespace Means

open Machine

variable {W : Type} {env : Embedding W} {a b : Piece W} {xs ys : List Item}

theorem «break» : Means env anyOp (.break : Piece W) [.plain .break] noOp := by
  refine ⟨rfl, fun {g s S bound budget i m previous q} hs hholds hq hbudget _ hm => ?_,
    fun _ _ hf => absurd hf List.not_mem_nil⟩
  obtain ⟨firstEnd, hread⟩ := g.stands.read hholds.head
  have hcarry : carryOut env (g.cursor i previous) .break firstEnd (g.place (i + 1))
      = (breakLoop : Work W Flow) >>= fun flow => pure flow := by
    rw [bind_pure]
    rfl
  refine run_step hs.offset rfl hread hcarry fun {flow n rest} hrest hdone _ => ?_
  obtain ⟨loop, own, hown, rfl, hn⟩ := hm.collectIfNeeded.breakLoop hdone
  obtain ⟨exit, hexit, -, -, htarget, -, hbroken, -⟩ := hq.loop hown
  rw [proceed_jump hn.committed hn.has htarget hexit]
  exact hbroken (by omega) hn

theorem «continue» : Means env anyOp (.continue : Piece W) [.plain .continue] noOp := by
  refine ⟨rfl, fun {g s S bound budget i m previous q} hs hholds hq hbudget _ hm => ?_,
    fun _ _ hf => absurd hf List.not_mem_nil⟩
  obtain ⟨firstEnd, hread⟩ := g.stands.read hholds.head
  have hcarry : carryOut env (g.cursor i previous) .continue firstEnd (g.place (i + 1))
      = (continueLoop : Work W Flow) >>= fun flow => pure flow := by
    rw [bind_pure]
    rfl
  refine run_step hs.offset rfl hread hcarry fun {flow n rest} hrest hdone _ => ?_
  obtain ⟨loop, own, hown, rfl, hn⟩ := hm.collectIfNeeded.continueLoop hdone
  obtain ⟨-, -, again, hagain, -, htarget, -, hcontinued⟩ := hq.loop hown
  rw [proceed_jump hn.committed hn.has htarget hagain]
  exact hcontinued (by omega) hn

theorem «return» : Means env anyOp (.return : Piece W) [.plain .return] noOp := by
  refine ⟨rfl, fun {g s S bound budget i m previous q} hs hholds hq hbudget _ hm => ?_,
    fun _ _ hf => absurd hf List.not_mem_nil⟩
  obtain ⟨firstEnd, hread⟩ := g.stands.read hholds.head
  have hcarry : carryOut env (g.cursor i previous) .return firstEnd (g.place (i + 1))
      = (returnFromCall : Work W Flow) >>= fun flow => pure flow := by
    rw [bind_pure]
    rfl
  refine run_step hs.offset rfl hread hcarry fun {flow n rest} hrest hdone hcarried => ?_
  have hprogram := program_of_carried hcarried
  rcases hm.collectIfNeeded.returnFromCall hdone with ⟨v, rfl⟩ | ⟨site, hsite, rfl, hreturns, hloops⟩
  · rfl
  · obtain ⟨j, hj, htarget, hrun⟩ := hq.back site hsite
    have hn : S.Left g n := ⟨hreturns, hloops, hprogram ▸ hm.committed, hprogram ▸ hm.has⟩
    rw [proceed_jump hn.committed hn.has htarget hj]
    exact hrun (by omega) (unread_of rfl) hn

/-- The run ends with the value on top. -/
theorem exited {g : Ground} {s : Setting W} {q : Sequel W} {budget i : Nat} {m : Machine W} {previous : Op}
    (hs : s.offset = g.offset) (hitem : g.items[i]? = some (.plain .exit)) :
    Machine.run env m (g.cursor i previous) budget = ((Piece.exit : Piece W).run s i m budget).followed q := by
  obtain ⟨firstEnd, hread⟩ := g.stands.read hitem
  have hcarry : carryOut env (g.cursor i previous) .exit firstEnd (g.place (i + 1))
      = (pop : Work W Value) >>= fun v => pure (.finish v) := rfl
  exact run_step hs rfl hread hcarry fun _ _ _ => rfl

end Means

/-! ## Rounds -/

/-- The items of a loop whose rounds have a step between them. -/
def Code.Shape.counting (start step round : List Item) : List Item :=
  .loop (start.length + step.length + round.length + 1) (start.length + 1)
    :: (start ++ .jump .always step.length :: (step ++ round))

section Rounds

open Machine

variable {W : Type} {env : Embedding W} {g : Ground} {S : Standing} {q : Sequel W} {again : Doing W} {bound : Nat}

theorem Setting.Fits.mono {s : Setting W} {bound' : Nat} (h : s.Fits env g bound) (hle : bound' ≤ bound) :
    s.Fits env g bound' :=
  ⟨h.offset, h.call.mono hle⟩

/-- The loops of a call do not matter to what is behind it. -/
theorem GoesBack.within {back : Machine W → Nat → Outcome W Value} (h : GoesBack env g S bound back)
    (own : List LoopFrame) : GoesBack env g { S with own := own } bound back := by
  intro site hsite
  obtain ⟨j, hj, hoffset, hrun⟩ := h site hsite
  exact ⟨j, hj, hoffset, fun hlt hprevious hleft =>
    hrun hlt hprevious ⟨hleft.returns, hleft.loops, hleft.committed, hleft.has⟩⟩

/-- What follows a round of a loop, with a number of rounds to come. -/
def Sequel.turning (q : Sequel W) (again : Doing W) : Nat → Sequel W
  | 0 => { q with broken := q.through, continued := fun _ _ => .outOfBudget }
  | rounds + 1 =>
    { q with broken := q.through, continued := fun m budget => ((again m budget).turns again rounds).followed q }

theorem Exit.followed_turns (x : Exit W) (again : Doing W) (rounds : Nat) (q : Sequel W) :
    (x.turns again rounds).followed q = x.followed (q.turning again rounds) := by
  cases rounds <;> cases x <;> rfl

/-- The rounds of a loop follow one another, if each does what is said to come again. -/
theorem Sequel.Fits.turning {loop : LoopFrame} {exit next : Nat} (hexit : exit < g.items.length)
    (hnext : next < g.items.length) (hbreak : loop.breakTarget = g.offset exit)
    (hcontinue : loop.continueTarget = g.offset next) (hq : q.Fits env g S bound exit anyOp)
    (hround : ∀ {m : Machine W} {budget : Nat} {previous : Op} {q' : Sequel W}, budget ≤ bound →
      (∀ i, q'.Fits env g { S with own := loop :: S.own } budget i noOp) → { S with own := loop :: S.own }.Of g m →
      run env m (g.cursor next previous) budget = (again m budget).followed q')
    {rounds : Nat} (hrounds : rounds ≤ bound) (i : Nat) :
    (q.turning again rounds).Fits env g { S with own := loop :: S.own } rounds i noOp := by
  induction rounds generalizing i with
  | zero =>
    refine ⟨fun _ hprevious => hprevious.elim, fun hloop => ?_, (hq.back.mono hrounds).within _⟩
    cases hloop
    exact ⟨exit, hexit, next, hnext, hbreak, hcontinue, fun hlt => absurd hlt (Nat.not_lt_zero _),
      fun hlt => absurd hlt (Nat.not_lt_zero _)⟩
  | succ rounds ih =>
    refine ⟨fun _ hprevious => hprevious.elim, fun hloop => ?_, (hq.back.mono hrounds).within _⟩
    cases hloop
    refine ⟨exit, hexit, next, hnext, hbreak, hcontinue,
      fun hlt hm => hq.through (by omega) trivial hm, fun {m budget previous} hlt hm => ?_⟩
    show _ = ((again m budget).turns again rounds).followed q
    rw [Exit.followed_turns]
    exact hround (by omega) (fun i => (ih (by omega) i).mono (by omega) fun _ h => h) hm

end Rounds

namespace Means

open Machine

variable {W : Type} {env : Embedding W} {a b c : Piece W} {xs ys zs : List Item}

/-- Entering a loop. -/
theorem opened {g : Ground} {s : Setting W} {S : Standing} {q : Sequel W} {budget i exit again : Nat} {m : Machine W}
    {previous : Op} {doing : Doing W} (hs : s.offset = g.offset) (hitem : g.items[i]? = some (.loop exit again))
    (hm : S.Of g m)
    (hnext : ∀ {n : Machine W} {rest : Nat} {loop : LoopFrame}, rest < budget →
      loop.breakTarget = g.offset (i + 1 + exit) → loop.continueTarget = g.offset (i + 1 + again) →
      { S with own := loop :: S.own }.Of g n →
      Machine.run env n (g.cursor (i + 1) .loop) rest = (doing n rest).followed q) :
    Machine.run env m (g.cursor i previous) budget
      = (s.step i (openLoop (g.offset (i + 1 + exit)) (g.offset (i + 1 + again))) (fun _ => doing) m budget).followed
          q := by
  obtain ⟨d, e, firstEnd, hread, hexit, hagain⟩ := g.stands.read hitem
  have hcarry : carryOut env (g.cursor i previous) (.loop d e) firstEnd (g.place (i + 1))
      = openLoop (g.offset (i + 1 + exit)) (g.offset (i + 1 + again)) >>= fun _ => pure (.goOn (g.place (i + 1))) := by
    unfold Ground.offset
    rw [← hexit, ← hagain, ← Nat.add_assoc, ← Nat.add_assoc]
    rfl
  refine run_step hs rfl hread hcarry fun {_ n rest} hrest hopen _ => ?_
  exact hnext (by omega) rfl rfl (hm.collectIfNeeded.openLoop hopen)

theorem loop (h : Means env anyOp a ys noOp) : Means env anyOp (.loop a) (.loop ys.length 0 :: ys) anyOp := by
  refine ⟨congrArg (· + 1) h.size, fun {g s S bound budget i m previous q} hs hholds hq hbudget _ hm => ?_,
    fun hholds f hf => h.functions hholds.tail f hf⟩
  have hend : i + (Item.loop ys.length 0 :: ys).length = i + 1 + ys.length := by
    rw [List.length_cons]
    omega
  have hroom := hholds.room
  rw [hend] at hq hroom
  have hbreak : s.offset (i + 1 + a.size) = g.offset (i + 1 + ys.length) := by rw [hs.offset, h.size]
  have hcontinue : s.offset (i + 1) = g.offset (i + 1 + 0) := by rw [hs.offset, Nat.add_zero]
  show _ = (s.step i (openLoop (s.offset (i + 1 + a.size)) (s.offset (i + 1)))
    (fun _ n rest => (a.run s (i + 1) n rest).turns (a.run s (i + 1)) rest) m budget).followed q
  rw [hbreak, hcontinue]
  refine opened hs.offset hholds.head hm fun {n rest frame} hlt hexit hagain hn => ?_
  rw [Exit.followed_turns]
  refine h.run (hs.mono (by omega)) hholds.tail ?_ (Nat.le_refl rest) trivial hn
  exact hq.turning hroom (by omega) hexit hagain (fun hle hfits hm =>
    h.run (hs.mono hle) hholds.tail (hfits _) (Nat.le_refl _) trivial hm) (by omega) _

theorem countingLoop (h : Means env anyOp a xs anyOp) (h' : Means env anyOp b ys anyOp)
    (h'' : Means env anyOp c zs noOp) :
    Means env anyOp (.countingLoop a b c) (Code.Shape.counting xs ys zs) anyOp := by
  have hlength : (Code.Shape.counting xs ys zs).length = xs.length + ys.length + zs.length + 2 := by
    simp only [Code.Shape.counting, List.length_cons, List.length_append]
    omega
  have hindex (i : Nat) : i + 1 + (xs.length + 1) = i + 2 + a.size := by
    rw [h.size]
    omega
  have hheld {g : Ground} {i : Nat} (hholds : g.Holds i (Code.Shape.counting xs ys zs)) :
      g.Holds (i + 2 + a.size) (ys ++ zs) := by
    rw [← hindex]
    exact hholds.tail.right.tail
  refine ⟨?_, fun {g s S bound budget i m previous q} hs hholds hq hbudget _ hm => ?_,
    fun {g i} hholds f hf => ?_⟩
  · rw [hlength, ← h.size, ← h'.size, ← h''.size]
    rfl
  · have hend : i + 1 + (xs.length + ys.length + zs.length + 1) = i + 2 + a.size + b.size + c.size := by
      rw [h.size, h'.size, h''.size]
      omega
    have hroom := hholds.room
    rw [hlength, show i + (xs.length + ys.length + zs.length + 2) = i + 2 + a.size + b.size + c.size by omega] at hq hroom
    show _ = (s.step i (openLoop (s.offset (i + 2 + a.size + b.size + c.size)) (s.offset (i + 2 + a.size)))
      (fun _ n rest => (((a.run s (i + 1) n rest).andThen (s.step (i + 1 + a.size) (pure ()) fun _ => .through)).andThen
        (c.run s (i + 2 + a.size + b.size))).turns ((b ++ c).run s (i + 2 + a.size)) rest) m budget).followed q
    rw [hs.offset, ← hend, ← hindex]
    refine opened hs.offset hholds.head hm fun {n rest frame} hlt hbreak hcontinue hn => ?_
    rw [hindex] at hcontinue ⊢
    rw [hend] at hbreak
    have hrest : rest ≤ bound := by omega
    -- the next round is a step and what is evaluated behind the start as well
    have hturning (j : Nat) := hq.turning hroom (by omega) hbreak hcontinue (fun hle hfits hm =>
      (h'.seq h'').run (hs.mono hle) (hheld hholds) (hfits _) (Nat.le_refl _) trivial hm) hrest j
    rw [Exit.followed_turns, Exit.followed_andThen, Exit.followed_andThen]
    have hround : ((q.turning ((b ++ c).run s (i + 2 + a.size)) rest).after
        (c.run s (i + 2 + a.size + b.size))).Fits env g { S with own := frame :: S.own } rest 0 noOp :=
      (hturning 0).before fun _ hprevious => hprevious.elim
    refine h.run (hs.mono hrest) hholds.tail.left (hround.before fun hle _ hm => ?_) (Nat.le_refl rest) trivial hn
    rw [← h.size]
    refine jumped hs.offset (h.size ▸ hholds.tail.right.head) hm fun hlt hn => ?_
    rw [show i + 1 + a.size + 1 + ys.length = i + 2 + a.size + b.size by rw [h'.size]; omega]
    exact h''.run (hs.mono hrest) (h'.size ▸ (hheld hholds).right) ((hturning _).mono (Nat.le_refl rest) fun _ h => h)
      (by omega) trivial hn
  · rcases List.mem_append.mp hf with hf | hf
    · rcases List.mem_append.mp hf with hf | hf
      · exact h.functions hholds.tail.left f hf
      · exact h'.functions (hheld hholds).left f hf
    · rw [h'.size] at hf
      exact h''.functions (hheld hholds).right f hf

end Means

end ScriptEngine
