import ScriptEngine.Proofs.Machine.Programs
import ScriptEngine.Proofs.Source.Callees
/-!
What calls are made on.

A program runs as `Receiving` evaluates it, and there a call is noted where its callee ends. On what it is noted is told
from the callee: a call of a member is noted on the object that the member was looked up in (`noted_of_front`), and a
call of what does not end in a member is noted on nothing (`noted_of_lastPart`). A callee that ends in a member without
being one, such as a choice, is called on the object of that member or on nothing (`noted_of_through`): on the object
where its last part was evaluated (`lastOfEither`).
-/

namespace ScriptEngine

open Code (Op)

/-! ## Ways through pieces -/

section Pieces

open Machine

variable {W α : Type} {s : Setting W} {i budget rest : Nat} {m n : Machine W}

theorem Exit.andThen_eq_through {x : Exit W} {next : Doing W} :
    x.andThen next = .through n rest ↔ ∃ m budget, x = .through m budget ∧ next m budget = .through n rest := by
  cases x <;> simp [andThen]

theorem Setting.step_eq_through {work : Work W α} {next : α → Doing W}
    (h : s.step i work next m budget = .through n rest) :
    ∃ a m' budget', work m.collectIfNeeded = .ok a m' ∧ next a m' budget' = .through n rest := by
  cases budget with
  | zero => cases h
  | succ budget =>
    simp only [step] at h
    split at h
    · cases h
    · cases hwork : work m.collectIfNeeded with
      | error e m' =>
        rw [hwork] at h
        cases h
      | ok a m' =>
        rw [hwork] at h
        exact ⟨a, m', budget, rfl, h⟩

namespace Piece

variable {a b c : Piece W}

theorem seq_eq_through : (a ++ b).run s i m budget = .through n rest ↔ ∃ m' budget',
    a.run s i m budget = .through m' budget' ∧ b.run s (i + a.size) m' budget' = .through n rest :=
  Exit.andThen_eq_through

theorem seq_assoc (a b c : Piece W) : a ++ b ++ c = a ++ (b ++ c) := by
  show Piece.mk _ _ _ = Piece.mk _ _ _
  rw [Piece.mk.injEq]
  refine ⟨Nat.add_assoc _ _ _, ?_, ?_⟩
  · funext s i m budget
    show ((a.run s i m budget).andThen (b.run s (i + a.size))).andThen (c.run s (i + (a.size + b.size)))
      = (a.run s i m budget).andThen fun m' budget' =>
          (b.run s (i + a.size) m' budget').andThen (c.run s (i + a.size + b.size))
    rw [Nat.add_assoc]
    cases a.run s i m budget <;> rfl
  · funext i
    show a.functions i ++ b.functions (i + a.size) ++ c.functions (i + (a.size + b.size))
      = a.functions i ++ (b.functions (i + a.size) ++ c.functions (i + a.size + b.size))
    rw [Nat.add_assoc, List.append_assoc]

theorem line_append (works works' : List (Work W Unit)) :
    (.line (works ++ works') : Piece W) = .line works ++ .line works' := by
  induction works with
  | nil =>
    show Piece.mk _ _ _ = Piece.mk _ _ _
    rw [Piece.mk.injEq]
    exact ⟨(Nat.zero_add _).symm, rfl, rfl⟩
  | cons work works ih =>
    show single work ++ line (works ++ works') = single work ++ line works ++ line works'
    rw [ih, seq_assoc]

/-- The last operation of a line goes with what is behind it. -/
theorem line_concat (works : List (Work W Unit)) (work work' : Work W Unit) :
    (.line (works ++ [work]) ++ .line [work'] : Piece W) = .line works ++ .line [work, work'] := by
  rw [line_append, seq_assoc, ← line_append]
  rfl

theorem one_eq_through {work : Work W Unit} (h : (line [work]).run s i m budget = .through n rest) :
    work m.collectIfNeeded = .ok () n := by
  obtain ⟨m', budget', hsingle, hnothing⟩ := seq_eq_through.mp h
  cases hnothing
  obtain ⟨_, _, _, hwork, hthrough⟩ := Setting.step_eq_through hsingle
  cases hthrough
  exact hwork

theorem two_eq_through {first second : Work W Unit}
    (h : (line [first, second]).run s i m budget = .through n rest) :
    ∃ m', first m.collectIfNeeded = .ok () m' ∧ second m'.collectIfNeeded = .ok () n := by
  obtain ⟨m', budget', hfirst, hsecond⟩ := seq_eq_through.mp h
  obtain ⟨_, _, _, hwork, hthrough⟩ := Setting.step_eq_through hfirst
  cases hthrough
  exact ⟨m', hwork, one_eq_through hsecond⟩

end Piece

end Pieces

/-! ## Operations -/

namespace Machine

variable {W : Type} {env : Embedding W} {m n : Machine W} {previous : Op} {v : Value} {f : Value → Value}

/-- The latest call was noted on a value. -/
def NotedOn (m : Machine W) (v : Value) : Prop :=
  ∃ call, m.pending.back? = some call ∧ call.receiver = v

theorem notedOn_beginArgs (h : beginArgs previous m = .ok () n) :
    n.NotedOn (if previous = .get then m.lastHolder else .undefined) := by
  unfold beginArgs at h
  split at h
  · cases h
  · cases h
    exact ⟨_, Array.back?_push, rfl⟩

theorem lastHolder_lookUp (h : lookUp env previous m = .ok () n) :
    ∃ holder, m.stack.back? = some holder ∧ n.lastHolder = if previous = .findScope then .undefined else holder := by
  unfold lookUp at h
  obtain ⟨holder, m₁, hpop, h⟩ := bind_eq_ok.mp h
  obtain ⟨key, m₂, -, h⟩ := bind_eq_ok.mp h
  obtain ⟨v, m₃, -, h⟩ := bind_eq_ok.mp h
  obtain ⟨_, m₄, -, h⟩ := bind_eq_ok.mp h
  cases h
  refine ⟨holder, ?_, rfl⟩
  unfold pop at hpop
  split at hpop
  · cases hpop
    assumption
  · cases hpop

theorem Relocation.undefined (hf : Relocation W f) : f .undefined = .undefined := by
  induction hf with
  | none => rfl
  | collection hf m full ih =>
    rw [Function.comp_apply, ih]
    rfl

/-- A collection before a step moves the values on the stack and the object of the latest look-up alike. -/
theorem exists_relocation (m : Machine W) : ∃ f, Relocation W f ∧ m.collectIfNeeded.stack = m.stack.map f
    ∧ m.collectIfNeeded.lastHolder = f m.lastHolder := by
  have hsame : ∃ f, Relocation W f ∧ m.stack = m.stack.map f ∧ m.lastHolder = f m.lastHolder :=
    ⟨id, .none, (Array.map_id _).symm, rfl⟩
  unfold collectIfNeeded
  split
  · unfold collect
    generalize hcollect : m.heap.collect m.heldValues false m.options.stringSlack = r
    obtain ⟨heap, moves, stats⟩ := r
    dsimp only
    split
    · exact hsame
    · have hmoves : moves = (m.heap.collect m.heldValues false m.options.stringSlack).2.1 := by rw [hcollect]
      exact ⟨_, .collection .none m false, by simp [mapHeld, hmoves], by simp [mapHeld, hmoves]⟩
  · exact hsame

/-- A call behind a look-up is noted on what was on top in front of it, if that was no scope. -/
theorem notedOn_of_lookUp {s : Setting W} {i budget rest : Nat}
    (h : (Piece.line [lookUp env previous, beginArgs .get]).run s i m budget = .through n rest) :
    ∃ holder f, m.stack.back? = some holder ∧ Relocation W f
      ∧ n.NotedOn (if previous = .findScope then .undefined else f holder) := by
  obtain ⟨m', hlook, hbegin⟩ := Piece.two_eq_through h
  obtain ⟨f, hf, hstack, -⟩ := exists_relocation m
  obtain ⟨g, hg, -, hlast⟩ := exists_relocation m'
  obtain ⟨moved, hmoved, hholder⟩ := lastHolder_lookUp hlook
  rw [hstack, Array.back?_map, Option.map_eq_some_iff] at hmoved
  obtain ⟨holder, hback, rfl⟩ := hmoved
  have hnoted := notedOn_beginArgs hbegin
  rw [if_pos rfl, hlast, hholder] at hnoted
  refine ⟨holder, g ∘ f, hback, hg.comp hf, ?_⟩
  split at hnoted
  · rw [if_pos ‹_›, ← hg.undefined]
    exact hnoted
  · rw [if_neg ‹_›]
    exact hnoted

/-- What is called has the object that the call was noted on for its receiver. -/
theorem receiver_of_callPending {call : PendingCall} {site pos : Nat} {flow : Flow}
    (hback : m.pending.back? = some call) (h : callPending site pos m = .ok flow n) :
    n.receiver = call.receiver := by
  cases hv : m.stack[call.calleeSlot]? with
  | none =>
    have htake : takePending m = .ok call { m with pending := m.pending.pop } := by simp only [takePending, hback]
    simp only [callPending, bind_eq, htake, inspect, hv] at h
    cases h
  | some v =>
    rcases callPending_eq hback hv site pos with ⟨entry, -, hcall⟩ | ⟨args, hcall⟩ | ⟨e, hcall⟩
    · rw [hcall] at h
      cases h
      rfl
    · rw [hcall] at h
      cases h
      rfl
    · rw [hcall] at h
      cases h

end Machine

/-! ## Callees -/

namespace Receiving

open Machine Source Evaluation

variable {W : Type} {env : Embedding W} {s : Setting W} {i budget rest : Nat} {m n : Machine W}

theorem notedOn_of_opening (h : (opening true : Piece W).run s i m budget = .through n rest) :
    n.NotedOn .undefined :=
  notedOn_beginArgs (Piece.one_eq_through h)

theorem notedOn_of_noted {last : Op} {a : Piece W} (h : (noted last a true).run s i m budget = .through n rest)
    (hlast : decide (last = .get) = false) : n.NotedOn .undefined := by
  obtain ⟨_, _, -, hopening⟩ := Piece.seq_eq_through.mp h
  have hnoted := notedOn_beginArgs (Piece.one_eq_through hopening)
  rwa [if_neg (of_decide_eq_false hlast)] at hnoted

/-- The call of a variable is noted on nothing. -/
theorem notedOn_of_variable {name : Name} {line : Nat} {read : Option Nat}
    (h : (expr env (.variable name line read) true).run s i m budget = .through n rest) : n.NotedOn .undefined := by
  cases read with
  | none =>
    rw [expr] at h
    exact notedOn_of_noted h rfl
  | some readLine =>
    have hsplit : expr env (.variable name line (some readLine)) true
        = .line [pushText name, findVariable] ++ .line [lookUp env .findScope, beginArgs .get] :=
      Piece.line_concat [_, _] _ _
    rw [hsplit] at h
    obtain ⟨_, _, -, hlook⟩ := Piece.seq_eq_through.mp h
    obtain ⟨_, _, -, -, hnoted⟩ := notedOn_of_lookUp hlook
    exact hnoted

/-- A member that is called is looked up behind what is in front of its look-up. -/
theorem expr_of_front : ∀ (callee : Expr) {a : Piece W} (_ : front env callee = some a),
    expr env callee true = a ++ .line [lookUp env .swap, beginArgs .get]
  | .paren inner, _, h => expr_of_front inner h
  | .member object name line (some readLine), _, h => by
    cases h
    rw [Piece.seq_assoc, ← Piece.line_concat, ← Piece.seq_assoc]
    rfl
  | .index object key line (some readLine), _, h => by
    cases h
    rw [Piece.seq_assoc _ (.line _), ← Piece.line_concat, ← Piece.seq_assoc]
    rfl

/-- What a piece left on top, a call was noted on, wherever collections moved it to. -/
def NotedBehind (a : Piece W) (s : Setting W) (i : Nat) (m : Machine W) (budget : Nat) (n : Machine W) : Prop :=
  ∃ m' budget' holder f, a.run s i m budget = .through m' budget' ∧ m'.stack.back? = some holder
    ∧ Relocation W f ∧ n.NotedOn (f holder)

/-- A call of a member is noted on the object that the member was looked up in. -/
theorem noted_of_front {callee : Expr} {a : Piece W} (ha : front env callee = some a)
    (h : (expr env callee true).run s i m budget = .through n rest) : NotedBehind a s i m budget n := by
  rw [expr_of_front callee ha] at h
  obtain ⟨m', budget', hfront, hlook⟩ := Piece.seq_eq_through.mp h
  obtain ⟨holder, f, hback, hf, hnoted⟩ := notedOn_of_lookUp hlook
  exact ⟨m', budget', holder, f, hfront, hback, hf, hnoted⟩

/-- A call is noted on nothing, or on the object of the last part of its callee. -/
theorem noted_of_through {callee : Expr} (h : (expr env callee true).run s i m budget = .through n rest) :
    n.NotedOn .undefined
      ∨ ∃ a j m' budget', front env callee.lastPart = some a ∧ NotedBehind a s j m' budget' n := by
  induction callee using Expr.lastPart.induct generalizing i m budget with
  | case1 inner ih => exact ih h
  | case2 left last line ih | case3 left last line ih =>
    rw [expr] at h
    obtain ⟨_, _, -, hguarded⟩ := Piece.seq_eq_through.mp h
    obtain ⟨enters, _, _, -, hrest⟩ := Setting.step_eq_through hguarded
    cases enters with
    | true =>
      obtain ⟨_, _, -, hlast⟩ := Piece.seq_eq_through.mp hrest
      exact ih hlast
    | false => exact .inl (notedOn_of_opening hrest)
  | case4 test yes last line colonLine ih =>
    rw [expr] at h
    obtain ⟨_, _, -, hchoice⟩ := Piece.seq_eq_through.mp h
    obtain ⟨holds, _, _, -, hrest⟩ := Setting.step_eq_through hchoice
    cases holds with
    | true =>
      obtain ⟨_, _, -, hopening⟩ := Exit.andThen_eq_through.mp hrest
      exact .inl (notedOn_of_opening hopening)
    | false =>
      obtain ⟨_, _, -, hlast⟩ := Piece.seq_eq_through.mp hrest
      exact ih hlast
  | case5 callee hparen hboth heither hconditional =>
    cases callee with
    | paren => exact (hparen _ rfl).elim
    | both => exact (hboth _ _ _ rfl).elim
    | either => exact (heither _ _ _ rfl).elim
    | conditional => exact (hconditional _ _ _ _ _ rfl).elim
    | «variable» name line read => exact .inl (notedOn_of_variable h)
    | member object name line read | index object key line read =>
      cases read with
      | none =>
        rw [expr] at h
        exact .inl (notedOn_of_noted h rfl)
      | some readLine => exact .inr ⟨_, i, m, budget, rfl, noted_of_front rfl h⟩
    | _ =>
      rw [expr] at h
      exact .inl (notedOn_of_noted h rfl)

theorem isMember_of_front : ∀ (e : Expr) {a : Piece W} (_ : front env e = some a), e.isMember = true
  | .paren inner, _, h => isMember_of_front inner h
  | .member _ _ _ _, _, _ | .index _ _ _ _, _, _ => rfl

/-- A call of what does not end in a member is noted on nothing. -/
theorem noted_of_lastPart {callee : Expr} (hlast : callee.lastPart.isMember = false)
    (h : (expr env callee true).run s i m budget = .through n rest) : n.NotedOn .undefined := by
  obtain hnoted | ⟨a, -, -, -, ha, -⟩ := noted_of_through h
  · exact hnoted
  · exact absurd (hlast.symm.trans (isMember_of_front _ ha)) Bool.false_ne_true

end Receiving

/-! ## Programs -/

section Programs

open Machine Source

variable {W : Type} {env : Embedding W}

/-- A program runs as it is evaluated, and the receiver of a call is the value that it was noted on where its callee
ended: the object that a member was looked up in, nothing where the callee does not end in a member, and one or the
other in any case. -/
theorem receiver_by_callee (henv : env.Steady) {filename source : String} {width : Nat} {unit : Array UInt8}
    {script : Script} (hcompile : Code.compile filename source width = .ok unit)
    (hparse : parseScript source = .ok script) :
    ∃ place, Code.Placed script unit place
      ∧ (∀ {m : Machine W} {base : Nat}, m.program.Committed → m.program.Has base unit → ∀ receiver args budget,
          execute env m base receiver args (budget + 1)
            = (Receiving.evaluate env (fun i => base + place i) script (m.enterExecution receiver args) budget).andThen
                (endExecution m.depths m.receiver))
      ∧ (∀ (callee : Expr) {s : Setting W} {i budget rest : Nat} {m n : Machine W},
          (Receiving.expr env callee true).run s i m budget = .through n rest →
            (∀ a, Receiving.front env callee = some a → Receiving.NotedBehind a s i m budget n)
            ∧ (callee.lastPart.isMember = false → n.NotedOn .undefined)
            ∧ (n.NotedOn .undefined ∨ ∃ a j m' budget',
                Receiving.front env callee.lastPart = some a ∧ Receiving.NotedBehind a s j m' budget' n))
      ∧ ∀ {m n : Machine W} {v : Value} {site pos : Nat} {flow : Flow},
          m.NotedOn v → callPending site pos m = .ok flow n → n.receiver = v := by
  obtain ⟨place, hplaced⟩ := Code.exists_placed hcompile hparse
  refine ⟨place, hplaced, fun hcommitted hhas => execute_eq_receiving henv hplaced hcommitted hhas,
    fun callee {s i budget rest m n} h => ⟨fun a ha => Receiving.noted_of_front ha h,
      fun hlast => Receiving.noted_of_lastPart hlast h, Receiving.noted_of_through h⟩, fun hnoted hcall => ?_⟩
  obtain ⟨call, hback, rfl⟩ := hnoted
  exact receiver_of_callPending hback hcall

/-- A program that calls the last part of an expression, which is a member. -/
def lastOfEither : String := "(0||[1].push)(2)"

/-- A program that calls a member that is not the last part of its expression. -/
def firstOfChoice : String := "(1?[1].push:0)(2)"

/-- What a program comes to. -/
def resultOf (source : String) : Except Error Value :=
  match sourceMachine source with
  | .ok (_, _, m) =>
    match execute guarding m 0 .undefined [] 100 with
    | .done _ result => result
    | _ => .error .exit
  | .error e => .error e

theorem resultOf_eq_ok {source : String} {v : Value} (h : resultOf source = .ok v) :
    ∃ unit script m n, sourceMachine source = .ok (unit, script, m)
      ∧ execute guarding m 0 .undefined [] 100 = .done n (.ok v) := by
  unfold resultOf at h
  split at h
  · rename_i unit script m hmachine
    split at h
    · rename_i n result hdone
      rw [h] at hdone
      exact ⟨unit, script, m, n, hmachine, hdone⟩
    · cases h
  · cases h

theorem resultOf_lastOfEither : resultOf lastOfEither = .ok (.ofNat 2) := by
  decide +kernel

theorem receiver_by_callee_lastOfEither :
    ∃ (unit : Array UInt8) (script : Script) (place : Nat → Nat) (m n : Machine Unit),
      guarding.Steady ∧ Code.compile "t.js" lastOfEither 1 = .ok unit ∧ parseScript lastOfEither = .ok script
        ∧ Code.Placed script unit place ∧ m.program.Committed ∧ m.program.Has 0 unit
        ∧ (Receiving.evaluate guarding (fun i => 0 + place i) script (m.enterExecution .undefined []) 99).andThen
            (endExecution m.depths m.receiver) = .done n (.ok (.ofNat 2)) := by
  obtain ⟨unit, script, m, n, hmachine, hdone⟩ := resultOf_eq_ok resultOf_lastOfEither
  obtain ⟨hcompile, hparse, hcommitted, hhas⟩ := of_sourceMachine hmachine
  obtain ⟨place, hplaced, hevaluates, -, -⟩ := receiver_by_callee guarding_steady hcompile hparse
  have hsame := hevaluates hcommitted hhas .undefined [] 99
  rw [hdone] at hsame
  exact ⟨unit, script, place, m, n, guarding_steady, hcompile, hparse, hplaced, hcommitted, hhas, hsame.symm⟩

/-- The last part of an expression is called on the array that it was looked up in, so that a value is appended. The
first part of a choice is called on nothing. -/
theorem last_part_receives : resultOf lastOfEither = .ok (.ofNat 2)
    ∧ resultOf firstOfChoice = .error (.type "push: this should be an array") :=
  ⟨resultOf_lastOfEither, by decide +kernel⟩

end Programs

end ScriptEngine
