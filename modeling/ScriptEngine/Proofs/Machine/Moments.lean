import ScriptEngine.Proofs.Machine.Accounts
/-!
Moments.

A `Moment` is something that goes on, or has come to an end, together with all that waits for it, innermost
first. One moment follows from another by a step that looks at the innermost activity only (`Moment.Next`), so a
session is a row of moments, and what happened before something else is what came earlier in that row. An outcome
within a budget is a row of moments to the end (`Moment.leads_iff`). Besides, somebody may ask a run to stop
between two instructions (`Moment.Interrupts`); rows that allow for this are `Moment.Later`.
-/

namespace ScriptEngine

/-- What waits for something to come to an end. -/
inductive Waiting (W : Type) where
  /-- A run, for a function outside of the code. -/
  | run (offset slot : Nat) (next : Cursor) (entries : List Depths)
  /-- An execution, for its run. -/
  | execution (start : Depths) (receiver : Value)
  /-- A call, for a function outside of the code. -/
  | call (size : Nat) (receiver : Value)
  /-- An action, for one of its calls. -/
  | action (next : Machine W → Except Error Value → Action W Value)

/-- A moment of a session. -/
inductive Moment (W : Type) where
  | going (t : Activity W) (waiting : List (Waiting W))
  | ended (m : Machine W) (result : Except Error Value) (waiting : List (Waiting W))

namespace Moment

open Machine (advance callHost callCallee perform)

variable {W : Type}

/-- The machine as it is. -/
def machine : Moment W → Machine W
  | going t _ => t.machine
  | ended m _ _ => m

/-- What waits for what goes on. -/
def waiting : Moment W → List (Waiting W)
  | going _ K | ended _ _ K => K

/-- An instruction is carried out next. -/
def Dispatches : Moment W → Prop
  | going (.running m _ _) _ => m.interrupted = false
  | _ => False

/-- What follows from a moment. -/
inductive Next (env : Embedding W) : Moment W → Moment W → Prop
  | stopped {m : Machine W} {K : List (Waiting W)} {c : Cursor} {entries : List Depths} (hup : m.interrupted = true) :
    Next env (going (.running m c entries) K) (ended m (.error .exit) K)
  | failed {m m' : Machine W} {K : List (Waiting W)} {c : Cursor} {entries : List Depths} {e : Error} (hgo : m.interrupted = false)
    (h : advance env c m.collectIfNeeded = .error e m') :
    Next env (going (.running m c entries) K) (ended (m'.noteFailure c.offset e) (.error e) K)
  | finished {m m' : Machine W} {K : List (Waiting W)} {c : Cursor} {entries : List Depths} {v : Value} (hgo : m.interrupted = false)
    (h : advance env c m.collectIfNeeded = .ok (.finish v) m') :
    Next env (going (.running m c entries) K) (ended m' (.ok v) K)
  | goOn {m m' : Machine W} {K : List (Waiting W)} {c c' : Cursor} {entries : List Depths} (hgo : m.interrupted = false)
    (h : advance env c m.collectIfNeeded = .ok (.goOn c') m') :
    Next env (going (.running m c entries) K)
      (going (.running m' c' (Machine.entriesAfter m.collectIfNeeded m' entries)) K)
  | host {m m' : Machine W} {K : List (Waiting W)} {c c' : Cursor} {entries : List Depths} {callee receiver : Value} {args : List Value} {slot : Nat}
    (hgo : m.interrupted = false) (h : advance env c m.collectIfNeeded = .ok (.host callee receiver args slot c') m') :
    Next env (going (.running m c entries) K)
      (going (.action m' (callHost env m' callee receiver args)) (.run c.offset slot c' entries :: K))
  | resumed {m : Machine W} {K : List (Waiting W)} {offset slot : Nat} {c : Cursor} {entries : List Depths} {v : Value} :
    Next env (ended m (.ok v) (.run offset slot c entries :: K))
      (going (.running (m.leaveHost.putResult slot v) c entries) K)
  | hostFailed {m : Machine W} {K : List (Waiting W)} {offset slot : Nat} {c : Cursor} {entries : List Depths} {e : Error} :
    Next env (ended m (.error e) (.run offset slot c entries :: K)) (ended (m.leaveHost.noteFailure offset e) (.error e) K)
  | unloaded {m : Machine W} {K : List (Waiting W)} {start : Nat} {receiver : Value} {args : List Value} {e : Error}
    (hload : Cursor.load m.program start .nop = .error e) :
    Next env (going (.execution m start receiver args) K)
      (ended (m.enterExecution receiver args) (.error e) (.execution m.depths m.receiver :: K))
  | enter {m : Machine W} {K : List (Waiting W)} {start : Nat} {receiver : Value} {args : List Value} {c : Cursor}
    (hload : Cursor.load m.program start .nop = .ok c) :
    Next env (going (.execution m start receiver args) K)
      (going (.running (m.enterExecution receiver args) c [(m.enterExecution receiver args).depths])
        (.execution m.depths m.receiver :: K))
  | left {m : Machine W} {K : List (Waiting W)} {r : Except Error Value} {start : Depths} {receiver : Value} :
    Next env (ended m r (.execution start receiver :: K))
      (ended (m.leaveExecution start receiver r).1 (m.leaveExecution start receiver r).2 K)
  | function {m : Machine W} {K : List (Waiting W)} {start : Payload} {receiver : Value} {args : List Value} :
    Next env (going (.call m (.function start) receiver args) K) (going (.execution m start.val receiver args) K)
  | outside {m : Machine W} {K : List (Waiting W)} {callee receiver : Value} {args : List Value} (h : Machine.IsOutside callee) :
    Next env (going (.call m callee receiver args) K)
      (going (.action (m.enterHostCall callee receiver args)
        (callHost env (m.enterHostCall callee receiver args) callee receiver args))
        (.call m.stack.size m.receiver :: K))
  | uncallable {m : Machine W} {K : List (Waiting W)} {callee receiver : Value} {args : List Value} (h : ¬ Machine.IsOutside callee)
    (hcode : ∀ start, callee ≠ .function start) :
    Next env (going (.call m callee receiver args) K) (ended m (.error (.type "calling non-callable")) K)
  | outsideLeft {m : Machine W} {K : List (Waiting W)} {r : Except Error Value} {size : Nat} {receiver : Value} :
    Next env (ended m r (.call size receiver :: K)) (ended (m.leaveHostCall size receiver) r K)
  | done {m m' : Machine W} {K : List (Waiting W)} {r : Except Error Value} : Next env (going (.action m' (.done m r)) K) (ended m r K)
  | code {m m' : Machine W} {K : List (Waiting W)} {start : Nat} {receiver : Value} {args : List Value}
    {next : Machine W → Except Error Value → Action W Value} :
    Next env (going (.action m' (.call m (.code start) receiver args next)) K)
      (going (.execution m start receiver args) (.action next :: K))
  | value {m m' : Machine W} {K : List (Waiting W)} {callee receiver : Value} {args : List Value} {next : Machine W → Except Error Value → Action W Value} :
    Next env (going (.action m' (.call m (.value callee) receiver args next)) K)
      (going (.call m callee receiver args) (.action next :: K))
  | answered {m : Machine W} {K : List (Waiting W)} {r : Except Error Value} {next : Machine W → Except Error Value → Action W Value} :
    Next env (ended m r (.action next :: K)) (going (.action m (next m r)) K)

/-- The moment that follows, if there is one. -/
def next? (env : Embedding W) : Moment W → Option (Moment W)
  | going (.running m c entries) K =>
    if m.interrupted then some (ended m (.error .exit) K)
    else
      match advance env c m.collectIfNeeded with
      | .error e m' => some (ended (m'.noteFailure c.offset e) (.error e) K)
      | .ok (.finish v) m' => some (ended m' (.ok v) K)
      | .ok (.goOn c') m' => some (going (.running m' c' (Machine.entriesAfter m.collectIfNeeded m' entries)) K)
      | .ok (.host callee receiver args slot c') m' =>
        some (going (.action m' (callHost env m' callee receiver args)) (.run c.offset slot c' entries :: K))
  | going (.execution m start receiver args) K =>
    match Cursor.load m.program start .nop with
    | .error e => some (ended (m.enterExecution receiver args) (.error e) (.execution m.depths m.receiver :: K))
    | .ok c =>
      some (going (.running (m.enterExecution receiver args) c [(m.enterExecution receiver args).depths])
        (.execution m.depths m.receiver :: K))
  | going (.call m callee receiver args) K =>
    match callee with
    | .function start => some (going (.execution m start.val receiver args) K)
    | .native _ | .signature _ =>
      some (going (.action (m.enterHostCall callee receiver args)
        (callHost env (m.enterHostCall callee receiver args) callee receiver args)) (.call m.stack.size m.receiver :: K))
    | _ => some (ended m (.error (.type "calling non-callable")) K)
  | going (.action _ (.done m r)) K => some (ended m r K)
  | going (.action _ (.call m (.code start) receiver args next)) K =>
    some (going (.execution m start receiver args) (.action next :: K))
  | going (.action _ (.call m (.value callee) receiver args next)) K =>
    some (going (.call m callee receiver args) (.action next :: K))
  | going (.action _ (.needsFile _)) _ => none
  | ended m r (.run offset slot c entries :: K) =>
    match r with
    | .ok v => some (going (.running (m.leaveHost.putResult slot v) c entries) K)
    | .error e => some (ended (m.leaveHost.noteFailure offset e) (.error e) K)
  | ended m r (.execution start receiver :: K) =>
    some (ended (m.leaveExecution start receiver r).1 (m.leaveExecution start receiver r).2 K)
  | ended m r (.call size receiver :: K) => some (ended (m.leaveHostCall size receiver) r K)
  | ended m r (.action next :: K) => some (going (.action m (next m r)) K)
  | ended _ _ [] => none

/-- What follows is determined. -/
theorem next_iff {env : Embedding W} {M M' : Moment W} : Next env M M' ↔ M.next? env = some M' := by
  constructor
  · intro h
    cases h with
    | stopped hup => simp only [next?, hup, if_true]
    | failed hgo h | finished hgo h | goOn hgo h | host hgo h => simp only [next?, hgo, h, Bool.false_eq_true, if_false]
    | unloaded hload | enter hload => simp only [next?, hload]
    | outside h => rcases h with ⟨id, rfl⟩ | ⟨id, rfl⟩ <;> rfl
    | @uncallable m K callee receiver args h hcode =>
      cases callee with
      | function start => exact absurd rfl (hcode start)
      | native id => exact absurd (.inl ⟨id, rfl⟩) h
      | signature id => exact absurd (.inr ⟨id, rfl⟩) h
      | _ => rfl
    | resumed | hostFailed | left | function | outsideLeft | done | code | value | answered => rfl
  · intro h
    cases M with
    | going t K =>
      cases t with
      | running m c entries =>
        simp only [next?] at h
        split at h
        · rename_i hup
          cases h
          exact .stopped hup
        · rename_i hgo
          replace hgo : m.interrupted = false := Bool.eq_false_iff.mpr hgo
          split at h
          all_goals
            rename_i hadvance
            cases h
          · exact .failed hgo hadvance
          · exact .finished hgo hadvance
          · exact .goOn hgo hadvance
          · exact .host hgo hadvance
      | execution m start receiver args =>
        simp only [next?] at h
        split at h
        all_goals
          rename_i hload
          cases h
        · exact .unloaded hload
        · exact .enter hload
      | call m callee receiver args =>
        cases callee with
        | function start =>
          cases h
          exact .function
        | native id =>
          cases h
          exact .outside (.inl ⟨id, rfl⟩)
        | signature id =>
          cases h
          exact .outside (.inr ⟨id, rfl⟩)
        | _ =>
          cases h
          refine .uncallable ?_ fun start hstart => by cases hstart
          rintro (⟨id, hid⟩ | ⟨id, hid⟩) <;> cases hid
      | action m a =>
        cases a with
        | done n r =>
          cases h
          exact .done
        | needsFile path => cases h
        | call n callee receiver args next =>
          cases callee with
          | code start =>
            cases h
            exact .code
          | value v =>
            cases h
            exact .value
    | ended m r K =>
      cases K with
      | nil => cases h
      | cons w K =>
        cases w with
        | run offset slot c entries =>
          cases r with
          | ok v =>
            cases h
            exact .resumed
          | error e =>
            cases h
            exact .hostFailed
        | execution start receiver =>
          cases h
          exact .left
        | call size receiver =>
          cases h
          exact .outsideLeft
        | action next =>
          cases h
          exact .answered

theorem Next.unique {env : Embedding W} {M M₁ M₂ : Moment W} (h : Next env M M₁) (h' : Next env M M₂) : M₁ = M₂ :=
  Option.some.inj ((next_iff.mp h).symm.trans (next_iff.mp h'))

/-- Moments that follow one after the other. -/
def Leads (env : Embedding W) : Moment W → Moment W → Prop :=
  Relation.ReflTransGen (Next env)

/-- The moment that comes after some steps, if there is one. -/
def after? (env : Embedding W) : Nat → Moment W → Option (Moment W)
  | 0, M => some M
  | steps + 1, M => (M.next? env).bind (after? env steps)

theorem leads_of_after {env : Embedding W} {steps : Nat} {M M' : Moment W} (h : after? env steps M = some M') :
    Leads env M M' := by
  induction steps generalizing M with
  | zero =>
    cases h
    exact .refl
  | succ steps ih =>
    obtain ⟨M₁, hnext, hrest⟩ := Option.bind_eq_some_iff.mp h
    exact .head (next_iff.mpr hnext) (ih hrest)

/-! ## Budgets -/

end Moment

namespace Outcome

variable {W α β : Type} {o o' : Outcome W α}

/-- What comes to an end comes to the same end elsewhere. -/
def Upto (o o' : Outcome W α) : Prop :=
  ∀ n r, o = .done n r → o' = .done n r

theorem Upto.refl (o : Outcome W α) : o.Upto o :=
  fun _ _ h => h

theorem Upto.andThen {next next' : Machine W → Except Error α → Outcome W β} (h : o.Upto o')
    (hnext : ∀ n r, (next n r).Upto (next' n r)) : (o.andThen next).Upto (o'.andThen next') := by
  intro n r hdone
  obtain ⟨l, r', ho, hrest⟩ := andThen_eq_done hdone
  rw [h l r' ho]
  exact hnext l r' n r hrest

end Outcome

namespace Activity

open Machine (advance callHost callCallee perform)

variable {W : Type} {env : Embedding W} {t : Activity W} {n : Machine W} {r : Except Error Value}

/-- A larger budget changes nothing for what came to an end. -/
theorem outcome_succ (budget : Nat) : ∀ t : Activity W, (t.outcome env budget).Upto (t.outcome env (budget + 1)) := by
  induction budget with
  | zero =>
    intro t n r hdone
    cases t <;> cases hdone
  | succ budget ih =>
    have hrun (m : Machine W) (c : Cursor) : (Machine.run env m c budget).Upto (Machine.run env m c (budget + 1)) :=
      ih (.running m c [])
    have hexecute (m : Machine W) (start : Nat) (receiver : Value) (args : List Value) :
        (Machine.execute env m start receiver args budget).Upto (Machine.execute env m start receiver args (budget + 1)) :=
      ih (.execution m start receiver args)
    have hcallValue (m : Machine W) (callee receiver : Value) (args : List Value) :
        (Machine.callValue env m callee receiver args budget).Upto
          (Machine.callValue env m callee receiver args (budget + 1)) :=
      ih (.call m callee receiver args)
    have hperform (a : Action W Value) : (perform env a budget).Upto (perform env a (budget + 1)) := by
      cases a with
      | done m result => exact ih (.action m (.done m result))
      | call m callee receiver args next => exact ih (.action m (.call m callee receiver args next))
      | needsFile path =>
        intro n r hdone
        cases budget <;> cases hdone
    intro t
    cases t with
    | running m c entries =>
      show (Machine.run env m c (budget + 1)).Upto (Machine.run env m c (budget + 1 + 1))
      rw [Machine.run_succ, Machine.run_succ]
      split
      · exact .refl _
      · cases advance env c m.collectIfNeeded with
        | error e m' => exact .refl _
        | ok step m' =>
          cases step with
          | finish v => exact .refl _
          | goOn c' => exact hrun m' c'
          | host callee receiver args slot c' =>
            refine (hperform _).andThen fun n r => ?_
            cases r with
            | error e => exact .refl _
            | ok v => exact hrun _ c'
    | execution m start receiver args =>
      show (Machine.execute env m start receiver args (budget + 1)).Upto
        (Machine.execute env m start receiver args (budget + 1 + 1))
      rw [Machine.execute_succ, Machine.execute_succ]
      split
      · exact .refl _
      · exact (hrun _ _).andThen fun n r => .refl _
    | call m callee receiver args =>
      show (Machine.callValue env m callee receiver args (budget + 1)).Upto
        (Machine.callValue env m callee receiver args (budget + 1 + 1))
      rw [Machine.callValue_succ, Machine.callValue_succ]
      split
      · exact hexecute _ _ _ _
      · exact (hperform _).andThen fun n r => .refl _
      · exact (hperform _).andThen fun n r => .refl _
      · exact .refl _
    | action m a =>
      show (perform env a (budget + 1)).Upto (perform env a (budget + 1 + 1))
      cases a with
      | done m result => exact .refl _
      | needsFile path => exact .refl _
      | call m callee receiver args next =>
        rw [Machine.perform_call, Machine.perform_call]
        refine Outcome.Upto.andThen ?_ fun n r => hperform _
        cases callee with
        | code start => exact hexecute _ _ _ _
        | value v => exact hcallValue _ _ _ _

end Activity

/-! ## Outcomes -/

namespace Waiting

variable {W : Type} {env : Embedding W}

/-- How what waits goes on. -/
def goOn (env : Embedding W) (budget : Nat) : Waiting W → Machine W → Except Error Value → Outcome W Value
  | run offset slot next _ => Machine.resume env offset slot next budget
  | execution start receiver => Machine.endExecution start receiver
  | call size receiver => fun n r => .done (n.leaveHostCall size receiver) r
  | action next => fun n r => Machine.perform env (next n r) budget

theorem goOn_succ (budget : Nat) (w : Waiting W) (n : Machine W) (r : Except Error Value) :
    (w.goOn env budget n r).Upto (w.goOn env (budget + 1) n r) := by
  cases w with
  | run offset slot next entries =>
    cases r with
    | error e => exact .refl _
    | ok v => exact Activity.outcome_succ budget (.running _ next [])
  | execution start receiver => exact .refl _
  | call size receiver => exact .refl _
  | action next => exact Activity.outcome_succ budget (.action n (next n r))

/-- How all that waits goes on from an outcome. -/
def goOnAll (env : Embedding W) (budget : Nat) (o : Outcome W Value) (K : List (Waiting W)) : Outcome W Value :=
  K.foldl (fun o w => o.andThen (w.goOn env budget)) o

theorem goOnAll_upto {budget : Nat} {o o' : Outcome W Value} (h : o.Upto o') (K : List (Waiting W)) :
    (goOnAll env budget o K).Upto (goOnAll env (budget + 1) o' K) := by
  induction K generalizing o o' with
  | nil => exact h
  | cons w K ih => exact ih (h.andThen (goOn_succ budget w))

end Waiting

namespace Moment

open Machine (advance callHost callCallee perform)

variable {W : Type} {env : Embedding W} {M M' : Moment W} {K : List (Waiting W)} {m n : Machine W} {t : Activity W}
  {r : Except Error Value}

/-- What comes of a moment. -/
def outcome (env : Embedding W) (budget : Nat) : Moment W → Outcome W Value
  | going t K => Waiting.goOnAll env budget (t.outcome env budget) K
  | ended m r K => Waiting.goOnAll env budget (.done m r) K

/-- A moment comes to what the next one comes to. -/
theorem Next.outcome (h : Next env M M') (budget : Nat) : (M'.outcome env budget).Upto (M.outcome env (budget + 1)) := by
  have hrun {m : Machine W} {c : Cursor} {entries : List Depths} {o : Outcome W Value} (K : List (Waiting W))
      (hgo : m.interrupted = false)
      (ho : ∀ n r, o = .done n r →
        Machine.proceed env c.offset budget (advance env c m.collectIfNeeded) = .done n r) :
      (Waiting.goOnAll env budget o K).Upto ((going (.running m c entries) K).outcome env (budget + 1)) := by
    refine Waiting.goOnAll_upto (fun n r hdone => ?_) K
    show Machine.run env m c (budget + 1) = _
    rw [Machine.run_succ, if_neg (by simp [hgo])]
    exact ho n r hdone
  have hexecute {m : Machine W} {start : Nat} {receiver : Value} {args : List Value} {o : Outcome W Value}
      (K : List (Waiting W))
      (ho : ∀ n r, o = .done n r → Machine.execute env m start receiver args (budget + 1) = .done n r) :
      (Waiting.goOnAll env budget o K).Upto ((going (.execution m start receiver args) K).outcome env (budget + 1)) :=
    Waiting.goOnAll_upto ho K
  have hcall {m : Machine W} {callee receiver : Value} {args : List Value} {o : Outcome W Value}
      (K : List (Waiting W))
      (ho : ∀ n r, o = .done n r → Machine.callValue env m callee receiver args (budget + 1) = .done n r) :
      (Waiting.goOnAll env budget o K).Upto ((going (.call m callee receiver args) K).outcome env (budget + 1)) :=
    Waiting.goOnAll_upto ho K
  have haction {m : Machine W} {a : Action W Value} {o : Outcome W Value} (K : List (Waiting W))
      (ho : ∀ n r, o = .done n r → perform env a (budget + 1) = .done n r) :
      (Waiting.goOnAll env budget o K).Upto ((going (.action m a) K).outcome env (budget + 1)) :=
    Waiting.goOnAll_upto ho K
  cases h with
  | @stopped m K c entries hup =>
    refine Waiting.goOnAll_upto (fun n r hdone => ?_) K
    show Machine.run env m c (budget + 1) = _
    rw [Machine.run_succ, if_pos hup]
    exact hdone
  | failed hgo hadvance | finished hgo hadvance | goOn hgo hadvance =>
    refine hrun _ hgo fun n r hdone => ?_
    rw [hadvance]
    exact hdone
  | @host m m' K c c' entries callee receiver args slot hgo hadvance =>
    refine hrun K hgo fun n r hdone => ?_
    rw [hadvance]
    exact hdone
  | resumed => exact Waiting.goOnAll_upto (Activity.outcome_succ budget (.running _ _ [])) _
  | hostFailed | left | outsideLeft => exact Waiting.goOnAll_upto (.refl _) _
  | @unloaded m K start receiver args e hload | @enter m K start receiver args c hload =>
    refine hexecute K fun n r hdone => ?_
    rw [Machine.execute_succ, hload]
    exact hdone
  | function =>
    refine hcall _ fun n r hdone => ?_
    rw [Machine.callValue_succ]
    exact hdone
  | @outside m K callee receiver args houtside =>
    refine hcall K fun n r hdone => ?_
    rw [Machine.callValue_succ]
    rcases houtside with ⟨id, rfl⟩ | ⟨id, rfl⟩ <;> exact hdone
  | uncallable houtside hcode =>
    refine hcall _ fun n r hdone => ?_
    rw [Machine.callValue_succ]
    split
    · exact absurd rfl (hcode _)
    · exact absurd (.inl ⟨_, rfl⟩) houtside
    · exact absurd (.inr ⟨_, rfl⟩) houtside
    · exact hdone
  | done => exact haction _ fun n r hdone => hdone
  | @code m m' K start receiver args next | @value m m' K callee receiver args next =>
    refine haction K fun n r hdone => ?_
    rw [Machine.perform_call]
    exact hdone
  | answered => exact Waiting.goOnAll_upto (Activity.outcome_succ budget (.action _ _)) _

/-- A row of moments to the end is an outcome. -/
theorem outcome_of_leads (h : Leads env M (ended n r [])) : ∃ budget, M.outcome env budget = .done n r := by
  induction h using Relation.ReflTransGen.head_induction_on with
  | refl => exact ⟨0, rfl⟩
  | head hnext _ ih =>
    obtain ⟨budget, hdone⟩ := ih
    exact ⟨budget + 1, hnext.outcome budget n r hdone⟩

/-- What comes of an activity comes of it whatever waits for it. -/
theorem leads_of_outcome {budget : Nat} (h : t.outcome env budget = .done n r) (K : List (Waiting W)) :
    Leads env (going t K) (ended n r K) := by
  induction budget generalizing t n r K with
  | zero => cases t <;> cases h
  | succ budget ih =>
    have hexecute {m : Machine W} {start : Nat} {receiver : Value} {args : List Value} {n : Machine W}
        {r : Except Error Value} (K : List (Waiting W))
        (h : Machine.execute env m start receiver args budget = .done n r) :
        Leads env (going (.execution m start receiver args) K) (ended n r K) :=
      ih (t := .execution m start receiver args) h K
    have hperform {a : Action W Value} {n : Machine W} {r : Except Error Value} (m : Machine W) (K : List (Waiting W))
        (h : perform env a budget = .done n r) : Leads env (going (.action m a) K) (ended n r K) :=
      ih (t := .action m a) h K
    cases t with
    | running m c entries =>
      replace h : Machine.run env m c (budget + 1) = .done n r := h
      rw [Machine.run_succ] at h
      split at h
      · rename_i hup
        cases h
        exact .single (.stopped hup)
      · rename_i hgo
        replace hgo : m.interrupted = false := Bool.eq_false_iff.mpr hgo
        cases hadvance : advance env c m.collectIfNeeded with
        | error e m' =>
          rw [hadvance] at h
          cases h
          exact .single (.failed hgo hadvance)
        | ok step m' =>
          rw [hadvance] at h
          cases step with
          | finish v =>
            cases h
            exact .single (.finished hgo hadvance)
          | goOn c' => exact .head (.goOn hgo hadvance) (ih (t := .running m' c' _) h K)
          | host callee receiver args slot c' =>
            obtain ⟨l, r', hcall, hresume⟩ := Outcome.andThen_eq_done h
            refine .head (.host hgo hadvance) (.trans (hperform m' _ hcall) ?_)
            cases r' with
            | error e =>
              cases hresume
              exact .single .hostFailed
            | ok v => exact .head .resumed (ih (t := .running _ c' _) hresume K)
    | execution m start receiver args =>
      replace h : Machine.execute env m start receiver args (budget + 1) = .done n r := h
      rw [Machine.execute_succ] at h
      split at h
      · rename_i e hload
        cases h
        exact .head (.unloaded hload) (.single .left)
      · rename_i c hload
        obtain ⟨l, r', hrun, hend⟩ := Outcome.andThen_eq_done h
        cases hend
        exact .head (.enter hload) (.trans (ih (t := .running _ c _) hrun _) (.single .left))
    | call m callee receiver args =>
      replace h : Machine.callValue env m callee receiver args (budget + 1) = .done n r := h
      have houtside (hcallee : Machine.IsOutside callee)
          (hhost : Machine.hostCall env m callee receiver args budget = .done n r) :
          Leads env (going (.call m callee receiver args) K) (ended n r K) := by
        obtain ⟨l, r', hcall, hleave⟩ := Outcome.andThen_eq_done hhost
        cases hleave
        exact .head (.outside hcallee) (.trans (hperform _ _ hcall) (.single .outsideLeft))
      rw [Machine.callValue_succ] at h
      split at h
      · exact .head .function (hexecute K h)
      · exact houtside (.inl ⟨_, rfl⟩) h
      · exact houtside (.inr ⟨_, rfl⟩) h
      · rename_i hfunction hnative hsignature
        cases h
        refine .single (.uncallable ?_ hfunction)
        rintro (⟨id, rfl⟩ | ⟨id, rfl⟩)
        · exact hnative id rfl
        · exact hsignature id rfl
    | action m a =>
      replace h : perform env a (budget + 1) = .done n r := h
      cases a with
      | done l r' =>
        cases h
        exact .single .done
      | needsFile path => cases h
      | call l callee receiver args next =>
        rw [Machine.perform_call] at h
        obtain ⟨l', r', hcall, hrest⟩ := Outcome.andThen_eq_done h
        have hafter : Leads env (ended l' r' (.action next :: K)) (ended n r K) := .head .answered (hperform l' K hrest)
        cases callee with
        | code start => exact .head .code (.trans (hexecute _ hcall) hafter)
        | value v => exact .head .value (.trans (ih (t := .call l v receiver args) hcall _) hafter)

/-- An activity comes to an end within some budget just when its moments lead there. -/
theorem leads_iff : Leads env (going t []) (ended n r []) ↔ ∃ budget, t.outcome env budget = .done n r :=
  ⟨outcome_of_leads, fun ⟨_, h⟩ => leads_of_outcome h []⟩

/-! ## Interruptions from elsewhere -/

/-- Somebody asks a run to stop, between two instructions. -/
inductive Interrupts : Moment W → Moment W → Prop
  | intro (m : Machine W) (c : Cursor) (entries : List Depths) (K : List (Waiting W)) :
    Interrupts (going (.running m c entries) K) (going (.running m.interrupt c entries) K)

/-- A moment comes right after another one, whoever asks for a stop. -/
def Soon (env : Embedding W) (M M' : Moment W) : Prop :=
  Next env M M' ∨ Interrupts M M'

/-- A moment comes after another one, whoever asks for a stop. -/
def Later (env : Embedding W) : Moment W → Moment W → Prop :=
  Relation.ReflTransGen (Soon env)

theorem Leads.later (h : Leads env M M') : Later env M M' := by
  induction h with
  | refl => exact .refl
  | tail _ hnext ih => exact .tail ih (.inl hnext)

/-! ## What waits further out -/

/-- A moment, when more waits for all of it. -/
def on (M : Moment W) (K : List (Waiting W)) : Moment W :=
  match M with
  | going t K' => going t (K' ++ K)
  | ended m r K' => ended m r (K' ++ K)

@[simp] theorem machine_on (M : Moment W) (K : List (Waiting W)) : (M.on K).machine = M.machine := by
  cases M <;> rfl

theorem Next.on (h : Next env M M') (K : List (Waiting W)) : Next env (M.on K) (M'.on K) := by
  cases h with
  | stopped hup => exact .stopped hup
  | failed hgo h => exact .failed hgo h
  | finished hgo h => exact .finished hgo h
  | goOn hgo h => exact .goOn hgo h
  | host hgo h => exact .host hgo h
  | resumed => exact .resumed
  | hostFailed => exact .hostFailed
  | unloaded hload => exact .unloaded hload
  | enter hload => exact .enter hload
  | left => exact .left
  | function => exact .function
  | outside h => exact .outside h
  | uncallable h hcode => exact .uncallable h hcode
  | outsideLeft => exact .outsideLeft
  | done => exact .done
  | code => exact .code
  | value => exact .value
  | answered => exact .answered

theorem Soon.on (h : Soon env M M') (K : List (Waiting W)) : Soon env (M.on K) (M'.on K) := by
  rcases h with h | ⟨m, c, entries, K'⟩
  · exact .inl (h.on K)
  · exact .inr (.intro m c entries (K' ++ K))

theorem Leads.on (h : Leads env M M') (K : List (Waiting W)) : Leads env (M.on K) (M'.on K) := by
  induction h with
  | refl => exact .refl
  | tail _ hnext ih => exact .tail ih (hnext.on K)

theorem Later.on (h : Later env M M') (K : List (Waiting W)) : Later env (M.on K) (M'.on K) := by
  induction h with
  | refl => exact .refl
  | tail _ hsoon ih => exact .tail ih (hsoon.on K)

/-- What waits further out is not looked at before all the rest is over. -/
theorem Next.of_on {M₁ : Moment W} (h : Next env (M.on K) M₁) :
    (∃ M', Next env M M' ∧ M₁ = M'.on K) ∨ ∃ n r, M = ended n r [] := by
  cases M with
  | going t K' =>
    refine .inl ?_
    simp only [Moment.on] at h
    cases h with
    | stopped hup => exact ⟨_, .stopped hup, rfl⟩
    | failed hgo h => exact ⟨_, .failed hgo h, rfl⟩
    | finished hgo h => exact ⟨_, .finished hgo h, rfl⟩
    | goOn hgo h => exact ⟨_, .goOn hgo h, rfl⟩
    | host hgo h => exact ⟨_, .host hgo h, rfl⟩
    | unloaded hload => exact ⟨_, .unloaded hload, rfl⟩
    | enter hload => exact ⟨_, .enter hload, rfl⟩
    | function => exact ⟨_, .function, rfl⟩
    | outside h => exact ⟨_, .outside h, rfl⟩
    | uncallable h hcode => exact ⟨_, .uncallable h hcode, rfl⟩
    | done => exact ⟨_, .done, rfl⟩
    | code => exact ⟨_, .code, rfl⟩
    | value => exact ⟨_, .value, rfl⟩
  | ended m r K' =>
    cases K' with
    | nil => exact .inr ⟨m, r, rfl⟩
    | cons w K' =>
      refine .inl ?_
      simp only [Moment.on, List.cons_append] at h
      cases h with
      | resumed => exact ⟨_, .resumed, rfl⟩
      | hostFailed => exact ⟨_, .hostFailed, rfl⟩
      | left => exact ⟨_, .left, rfl⟩
      | outsideLeft => exact ⟨_, .outsideLeft, rfl⟩
      | answered => exact ⟨_, .answered, rfl⟩

/-- What comes later is part of what goes on now, or comes after its end. -/
theorem Later.of_on {M₁ : Moment W} (h : Later env (M.on K) M₁) :
    (∃ M', Later env M M' ∧ M₁ = M'.on K) ∨ ∃ n r, Later env M (ended n r []) ∧ Later env (ended n r K) M₁ := by
  induction h with
  | refl => exact .inl ⟨M, .refl, rfl⟩
  | @tail M₂ M₃ _ hsoon ih =>
    rcases ih with ⟨M', hM', rfl⟩ | ⟨n, r, hover, hafter⟩
    · rcases hsoon with hnext | hinterrupts
      · rcases hnext.of_on with ⟨M'', hnext', rfl⟩ | ⟨n, r, rfl⟩
        · exact .inl ⟨M'', .tail hM' (.inl hnext'), rfl⟩
        · exact .inr ⟨n, r, hM', .single (.inl hnext)⟩
      · cases M' with
        | going t K' =>
          cases hinterrupts with
          | intro m c entries => exact .inl ⟨_, .tail hM' (.inr (.intro m c entries K')), rfl⟩
        | ended m r K' => cases hinterrupts
    · exact .inr ⟨n, r, hover, .tail hafter hsoon⟩

end Moment

end ScriptEngine
