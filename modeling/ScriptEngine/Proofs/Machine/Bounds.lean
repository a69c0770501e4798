import ScriptEngine.Proofs.Code.Listings
import ScriptEngine.Proofs.Machine.Functions
import ScriptEngine.Proofs.Machine.Skeleton
/-!
The places that a machine is bound for.

Calls go back behind their call sites, loops go on at their two targets, and functions start somewhere. A
machine is `Bound` for some offsets if all these places are among them. As with the functions that a machine
knows, that is the same as to say that moving other offsets changes nothing (`bound_iff_turned`), so what is
known about machines over other code says what an instruction does with these places: it goes on at one of
them, at a target of its own, or behind itself (`Bound.carryOut`).
-/

namespace ScriptEngine

open Code (Instr Decoded Fetch)

/-- Calls go back behind their sites, and loops to their targets, at some offsets. -/
structure Skeleton.Bound (S : Nat → Prop) (E : Skeleton) : Prop where
  returns : ∀ r ∈ E.returns, ∀ site, r.callSite = some site → S (site + 1)
  loops : ∀ l ∈ E.loops, S l.breakTarget ∧ S l.continueTarget

/-- All places that a machine goes on at when something ends or is called are some offsets. -/
structure Machine.Bound {W : Type} (S : Nat → Prop) (m : Machine W) : Prop where
  functions : m.Within S
  places : m.skeleton.Bound S

/-- The move that only turns the targets of loops and the sites of calls. -/
def Move.turning {W : Type} (m : Machine W) (target site : Nat → Nat) : Move :=
  { Move.stay m with target := target, site := site }

/-- Targets and call sites stay where they lead to some offsets. -/
structure Turns (S : Nat → Prop) (target site : Nat → Nat) : Prop where
  target : ∀ o, S o → target o = o
  site : ∀ o, S (o + 1) → site o = o

/-- Some offsets and no others can be left alone. -/
theorem exists_turning (S : Nat → Prop) : ∃ turn : Nat → Nat, ∀ o, turn o = o ↔ S o := by
  classical
  refine ⟨fun o => if S o then o else o + 1, fun o => ⟨fun h => ?_, fun h => if_pos h⟩⟩
  by_contra hnot
  simp [hnot] at h

/-- All targets and call sites that lead elsewhere can be turned. -/
theorem exists_turns (S : Nat → Prop) :
    ∃ target site, Turns S target site ∧ (∀ o, target o = o → S o) ∧ ∀ o, site o = o → S (o + 1) := by
  obtain ⟨target, htarget⟩ := exists_turning S
  obtain ⟨site, hsite⟩ := exists_turning fun o => S (o + 1)
  exact ⟨target, site, ⟨fun o => (htarget o).mpr, fun o => (hsite o).mpr⟩, fun o => (htarget o).mp, fun o => (hsite o).mp⟩

theorem turns_id (S : Nat → Prop) : Turns S id id :=
  ⟨fun _ _ => rfl, fun _ _ => rfl⟩

namespace Machine

variable {W α : Type} {S Q : Nat → Prop} {m m' : Machine W}

/-- A machine with its targets and call sites turned. -/
theorem machine_turning (m : Machine W) (target site : Nat → Nat) :
    (Move.turning m target site).machine m = { m with
      frames := m.frames.map fun f => { f with callSite := f.callSite.map site }
      loops := m.loops.map fun l =>
        { l with breakTarget := target l.breakTarget, continueTarget := target l.continueTarget } } := by
  have hstay := congrArg (fun n : Machine W => ({ n with
    frames := m.frames.map fun f => { f with callSite := f.callSite.map site }
    loops := m.loops.map fun l =>
      { l with breakTarget := target l.breakTarget, continueTarget := target l.continueTarget } } : Machine W))
    (Move.machine_stay m)
  refine Eq.trans ?_ hstay
  have hframe : (Move.turning m target site).frame = fun f => { f with callSite := f.callSite.map site } := by
    funext f
    simp only [Move.frame]
    congr 1
    exact Move.value_stay m f.receiver
  show ({ (Move.stay m).machine m with
    frames := m.frames.map (Move.turning m target site).frame
    loops := m.loops.map (Move.turning m target site).loop } : Machine W) = _
  rw [hframe]
  rfl

theorem bound_skeleton_iff : m.skeleton.Bound S
    ↔ (∀ f ∈ m.frames, ∀ site, f.callSite = some site → S (site + 1))
      ∧ ∀ l ∈ m.loops, S l.breakTarget ∧ S l.continueTarget := by
  constructor
  · rintro ⟨hreturns, hloops⟩
    refine ⟨fun f hf => hreturns f.bare ?_, fun l hl => hloops l ?_⟩
    · simpa [skeleton] using ⟨f, hf, rfl⟩
    · simpa [skeleton] using hl
  · rintro ⟨hframes, hloops⟩
    refine ⟨fun r hr => ?_, fun l hl => hloops l (by simpa [skeleton] using hl)⟩
    obtain ⟨f, hf, rfl⟩ : ∃ f ∈ m.frames, Frame.bare f = r := by simpa [skeleton] using hr
    exact hframes f hf

/-- A machine is bound for some offsets when turning others changes nothing. -/
theorem bound_iff_turned : m.skeleton.Bound S
    ↔ ∀ target site, Turns S target site → (Move.turning m target site).machine m = m := by
  rw [bound_skeleton_iff]
  constructor
  · rintro ⟨hframes, hloops⟩ target site hturns
    have hsame : (m.frames.map fun f => { f with callSite := f.callSite.map site }) = m.frames := by
      refine (Array.map_congr_left fun f hf => ?_).trans (Array.map_id _)
      obtain ⟨receiver, callSite, scopes, loops, slot⟩ := f
      cases callSite with
      | none => rfl
      | some o => exact congrArg (fun o => Frame.mk receiver (some o) scopes loops slot) (hturns.site o (hframes _ hf o rfl))
    have hround : (m.loops.map fun l => { l with
        breakTarget := target l.breakTarget, continueTarget := target l.continueTarget }) = m.loops := by
      refine (Array.map_congr_left fun l hl => ?_).trans (Array.map_id _)
      obtain ⟨hexit, hagain⟩ := hloops l hl
      rw [hturns.target _ hexit, hturns.target _ hagain]
      rfl
    rw [machine_turning, hsame, hround]
  · intro h
    obtain ⟨target, site, hturns, htarget, hsite⟩ := exists_turns S
    have hm := h target site hturns
    rw [machine_turning] at hm
    have hall {ι : Type} {xs : Array ι} {g : ι → ι} (hxs : xs.map g = xs) : ∀ x ∈ xs, g x = x := by
      intro x hx
      obtain ⟨i, hi, rfl⟩ := Array.mem_iff_getElem.mp hx
      have hget := congrArg (fun ys : Array ι => ys[i]?) hxs
      simpa [hi] using hget
    refine ⟨fun f hf o ho => ?_, fun l hl => ?_⟩
    · have hframe := congrArg Frame.callSite (hall (congrArg Machine.frames hm) f hf)
      rw [ho] at hframe
      exact hsite o (Option.some.inj hframe)
    · have hloop := hall (congrArg Machine.loops hm) l hl
      exact ⟨htarget _ (congrArg LoopFrame.breakTarget hloop), htarget _ (congrArg LoopFrame.continueTarget hloop)⟩

/-- Work that does on a turned machine what it does on the machine leaves it bound for the same offsets. -/
theorem bound_of_parallel (h : m.skeleton.Bound S) {work : Work W α} (hquiet : Quiet work)
    {f : (Nat → Nat) → (Nat → Nat) → α → α}
    (hpar : ∀ target site, Turns S target site → (Move.turning m target site).Parallel (f target site) work work) :
    (leftBy (work m)).skeleton.Bound S := by
  obtain ⟨hprogram, hwidth, houtput⟩ := hquiet m
  have hmove (target site : Nat → Nat) : Move.turning (leftBy (work m)) target site = Move.turning m target site := by
    simp only [Move.turning, Move.stay, hprogram, hwidth, houtput]
  refine bound_iff_turned.mpr fun target site ht => ?_
  rw [hmove]
  exact (fixed_of_parallel (hpar target site ht) (bound_iff_turned.mp h target site ht)).1

/-! ## Instructions -/

/-- Where a run goes on: at some places of the unit that it is in, or at some offsets. -/
def FlowBound (Q S : Nat → Prop) : Flow → Prop
  | .goOn pos => Q pos
  | .jump o => S o
  | .finish _ => True
  | .host _ _ _ _ pos => Q pos

/-- Work leaves a machine bound for some offsets, and goes on at some places or at one of these offsets. -/
def GoesOn (Q S : Nat → Prop) (work : Work W Flow) (m : Machine W) : Prop :=
  (leftBy (work m)).skeleton.Bound S ∧ ∀ flow m', work m = .ok flow m' → FlowBound Q S flow

theorem goesOn_pure {pos : Nat} (hpos : Q pos) (h : m.skeleton.Bound S) :
    GoesOn Q S (pure (.goOn pos) : Work W Flow) m := by
  refine ⟨h, fun flow m' hwork => ?_⟩
  cases hwork
  exact hpos

/-- Work that does on a turned machine what it does on the machine goes on at places that are not turned. -/
theorem goesOn_of_parallel (h : m.skeleton.Bound S) {work : Work W Flow} (hquiet : Quiet work)
    (offset : (Nat → Nat) → (Nat → Nat) → Nat → Nat)
    (hpar : ∀ target site place, Turns S target site → (∀ pos, Q pos → place pos = pos) →
      (Move.turning m target site).Parallel ((Move.turning m target site).flow (offset target site) place) work work)
    (hoffset : ∀ o m', work m = .ok (.jump o) m' →
      (∀ target site, Turns S target site → offset target site o = o) → S o) : GoesOn Q S work m := by
  have hfixed (target site place : Nat → Nat) (ht : Turns S target site) (hplace : ∀ pos, Q pos → place pos = pos) :=
    fixed_of_parallel (hpar target site place ht hplace) (bound_iff_turned.mp h target site ht)
  refine ⟨bound_of_parallel h hquiet fun target site ht => hpar target site id ht fun _ _ => rfl, fun flow m' hwork => ?_⟩
  obtain ⟨place, hplace⟩ := exists_turning Q
  have hflow := (hfixed id id place (turns_id S) fun pos => (hplace pos).mpr).2 flow m' hwork
  cases flow with
  | goOn pos => exact (hplace pos).mp (Flow.goOn.inj hflow)
  | jump o =>
    exact hoffset o m' hwork fun target site ht =>
      Flow.jump.inj ((hfixed target site id ht fun _ _ => rfl).2 _ m' hwork)
  | finish v => trivial
  | host callee receiver args slot pos => exact (hplace pos).mp (Flow.host.inj hflow).2.2.2.2

/-- So does work that never jumps, over whatever code. -/
theorem goesOn_onward (h : m.skeleton.Bound S) {work : Work W Flow} (hquiet : Quiet work)
    (hpar : ∀ (M : Move) place, (∀ pos, Q pos → place pos = pos) → M.Parallel (M.flow Nat.succ place) work work) :
    GoesOn Q S work m := by
  refine goesOn_of_parallel h hquiet (fun _ _ => Nat.succ) (fun _ _ place _ hplace => hpar _ place hplace) ?_
  intro o _ _ hsame
  exact absurd (hsame id id (turns_id S)) (Nat.succ_ne_self o)

theorem goesOn_jumpIf (h : m.skeleton.Bound S) (wanted : Bool) {pos distance : Nat} (hpos : Q pos)
    (hjump : Q (pos + distance)) : GoesOn Q S (jumpIf wanted pos distance) m := by
  refine goesOn_onward h (quiet_of_parallel fun m => parallel_jumpIf id id wanted rfl) fun M place hplace => ?_
  have hpar := parallel_jumpIf (W := W) (M := M) Nat.succ place wanted
    (show place (pos + distance) = place pos + distance by rw [hplace _ hjump, hplace _ hpos])
  rwa [hplace _ hpos] at hpar

theorem goesOn_jumpKeeping (h : m.skeleton.Bound S) (wanted : Bool) {pos distance : Nat} (hpos : Q pos)
    (hjump : Q (pos + distance)) : GoesOn Q S (jumpKeeping wanted pos distance) m := by
  refine goesOn_onward h (quiet_of_parallel fun m => parallel_jumpKeeping id id wanted rfl) fun M place hplace => ?_
  have hpar := parallel_jumpKeeping (W := W) (M := M) Nat.succ place wanted
    (show place (pos + distance) = place pos + distance by rw [hplace _ hjump, hplace _ hpos])
  rwa [hplace _ hpos] at hpar

/-- A function that is called starts where functions of the machine do, which is not at the first bytes of all
code. -/
theorem Within.callPending (h : m.Within S) (hzero : ¬ S 0) (hone : ¬ S 1) {site pos o : Nat}
    (hwork : callPending site pos m = .ok (.jump o) m') : S o := by
  have hsmall := callPending_jump hwork
  obtain ⟨-, hsame⟩ := h.work (f := fun r => (Move.renaming m r).flow (Move.renaming m r).entry id)
    (fun r _ => parallel_callPending site pos id) (quiet_of_parallel fun m => parallel_callPending site pos id)
  have hfunction : (Value.function ⟨o, hsmall⟩).Within S := by
    intro r hr
    have hentry : (Move.renaming m r).entry o = o := Flow.jump.inj (hsame _ _ hwork r hr)
    rw [show o = (⟨o, hsmall⟩ : Payload).val from rfl, Move.entry_val] at hentry
    exact congrArg Value.function (Fin.ext hentry)
  exact hfunction.start hzero hone

/-- A call goes to a function, and will go back behind itself. -/
theorem Bound.callPending (h : m.Bound S) (hzero : ¬ S 0) (hone : ¬ S 1) {site pos : Nat} (hsite : S (site + 1))
    (hpos : Q pos) : GoesOn Q S (callPending site pos) m := by
  refine goesOn_of_parallel h.places (quiet_of_parallel fun m => parallel_callPending site pos id)
    (fun target turned => (Move.turning m target turned).entry) ?_ ?_
  · intro target turned place hturns hplace
    have hpar := parallel_callPending (W := W) (M := Move.turning m target turned) site pos place
    rwa [hplace pos hpos, show (Move.turning m target turned).site site = site from hturns.site _ hsite] at hpar
  · intro o m' hwork _
    exact h.functions.callPending hzero hone hwork

theorem goesOn_returnFromCall (h : m.skeleton.Bound S) : GoesOn Q S returnFromCall m := by
  refine goesOn_of_parallel h (quiet_of_parallel fun m => parallel_returnFromCall id)
    (fun _ site o => site (o - 1) + 1) (fun target site place _ _ => parallel_returnFromCall place) ?_
  intro o _ _ hsame
  obtain ⟨target, site, hturns, -, hsite⟩ := exists_turns S
  have hback : site (o - 1) + 1 = o := hsame target site hturns
  obtain ⟨o, rfl⟩ : ∃ o', o = o' + 1 := ⟨o - 1, by omega⟩
  exact hsite o (Nat.succ.inj hback)

theorem goesOn_breakLoop (h : m.skeleton.Bound S) : GoesOn Q S breakLoop m := by
  refine goesOn_of_parallel h (quiet_of_parallel fun m => parallel_breakLoop id) (fun target _ => target)
    (fun target site place _ _ => parallel_breakLoop place) ?_
  intro o _ _ hsame
  obtain ⟨target, site, hturns, htarget, -⟩ := exists_turns S
  exact htarget o (hsame target site hturns)

theorem goesOn_continueLoop (h : m.skeleton.Bound S) : GoesOn Q S continueLoop m := by
  refine goesOn_of_parallel h (quiet_of_parallel fun m => parallel_continueLoop id) (fun target _ => target)
    (fun target site place _ _ => parallel_continueLoop place) ?_
  intro o _ _ hsame
  obtain ⟨target, site, hturns, htarget, -⟩ := exists_turns S
  exact htarget o (hsame target site hturns)

theorem bound_openLoop (h : m.skeleton.Bound S) {exit again : Nat} (hexit : S exit) (hagain : S again) :
    ({ m with loops := m.loops.push ⟨m.scopes.size, exit, again⟩ } : Machine W).skeleton.Bound S := by
  obtain ⟨hframes, hloops⟩ := bound_skeleton_iff.mp h
  refine bound_skeleton_iff.mpr ⟨hframes, fun l hl => ?_⟩
  rcases Array.mem_push.mp hl with hl | rfl
  · exact hloops l hl
  · exact ⟨hexit, hagain⟩

/-- Where the code has an instruction go on: behind itself, and at its targets. -/
structure Goes (Q S : Nat → Prop) (c : Cursor) (f : Fetch) : Prop where
  targets : f.Targets Q
  next : f.instr ≠ .exit → f.instr ≠ .header → Q f.next
  first : f.instr = .header → Q c.codeStart
  /-- A call instruction is one byte. -/
  call : f.instr = .call → f.next = c.pos + 1
  offset : ∀ pos, Q pos → S (c.base + pos)

/-- An instruction goes on where the code has it go on, or where the machine is bound for, and leaves the machine
bound for that. -/
theorem Bound.carryOut (h : m.Bound S) (hzero : ¬ S 0) (hone : ¬ S 1) (env : Embedding W) {c : Cursor} {f : Fetch}
    (hgoes : Goes Q S c f) : GoesOn Q S (carryOut env c f.instr f.firstEnd f.next) m := by
  obtain ⟨pos, i, firstEnd, next⟩ := f
  obtain ⟨htargets, hnext, hfirst, hcall, hoffset⟩ := hgoes
  cases hstraight : i.isStraight with
  | true =>
    refine goesOn_onward h.places (quiet_carryOut env c i firstEnd next) fun M place hplace => ?_
    have hpar := parallel_carryOut (M := M) env (rfl : c.previous = c.previous) hstraight Nat.succ place firstEnd firstEnd next
    by_cases hexit : i = .exit
    · subst hexit
      exact hpar
    · rwa [hplace next (hnext hexit (by rintro rfl; cases hstraight))] at hpar
  | false =>
    cases i with
    | header => exact goesOn_pure (hfirst rfl) h.places
    | jmp distance => exact goesOn_pure htargets h.places
    | jmpTrue distance => exact goesOn_jumpIf h.places true (hnext (by simp) (by simp)) htargets
    | jmpFalse distance => exact goesOn_jumpIf h.places false (hnext (by simp) (by simp)) htargets
    | jmpNeutralTrue distance => exact goesOn_jumpKeeping h.places true (hnext (by simp) (by simp)) htargets
    | jmpNeutralFalse distance => exact goesOn_jumpKeeping h.places false (hnext (by simp) (by simp)) htargets
    | pushFunc back =>
      show GoesOn Q S (ofExcept (functionBack c.offset back) >>= fun v => push v >>= fun _ =>
        (pure (.goOn next) : Work W Flow)) m
      cases hback : functionBack c.offset back with
      | error e => exact ⟨h.places, fun flow m' hwork => by cases hwork⟩
      | ok v =>
        exact goesOn_pure (m := { m with stack := m.stack.push v }) (hnext (by simp) (by simp))
          ⟨h.places.returns, h.places.loops⟩
    | call =>
      have hbehind : Q next := hnext (by simp) (by simp)
      refine h.callPending hzero hone ?_ hbehind
      have hbyte : next = c.pos + 1 := hcall rfl
      have hreturn := hoffset next hbehind
      rwa [hbyte, ← Nat.add_assoc] at hreturn
    | «return» => exact goesOn_returnFromCall h.places
    | loop breakDistance continueDistance =>
      have hexit := hoffset _ htargets.1
      have hagain := hoffset _ htargets.2
      rw [← Nat.add_assoc] at hexit hagain
      exact goesOn_pure (hnext (by simp) (by simp)) (bound_openLoop h.places hexit hagain)
    | «break» => exact goesOn_breakLoop h.places
    | «continue» => exact goesOn_continueLoop h.places
    | _ => cases hstraight

end Machine

end ScriptEngine
