import ScriptEngine.Proofs.Machine.Notes
/-!
Requests.

A request with no execution around it is refused, or makes one call and notes how that ended
(`Request.once`). So the moments of a request are few besides those of the run that it starts: they come before it
(`Moment.later_of_once`), or close it (`Moment.later_of_closing`).
-/

namespace ScriptEngine

open Machine (IsOutside)

namespace Machine

variable {W : Type} {m : Machine W}

/-- The account of errors is reset. -/
def cleared (m : Machine W) : Machine W :=
  { m with lastError := none, trace := [] }

/-- The account of errors is kept. -/
def concluded (m : Machine W) (r : Except Error Value) : Machine W :=
  match r with
  | .ok _ => m
  | .error e => { m with lastError := some e }

theorem entry_outermost (hdepth : m.depth = 0) (body : Machine W → Action W Value) :
    m.entry body = (body m.cleared).bind fun n r => .done (n.concluded r) r := by
  unfold entry
  rw [if_pos hdepth]
  congr 1
  funext n r
  cases r <;> rfl

@[simp] theorem depth_concluded (m : Machine W) (r : Except Error Value) : (m.concluded r).depth = m.depth := by
  cases r <;> rfl

/-- A script is compiled and committed without a look at the rest. -/
theorem compileScript_cases (filename source : String) (m : Machine W) :
    (∃ e, compileScript filename source m = .error e m)
      ∨ ∃ part program, compileScript filename source m = .ok part { m with program := program } := by
  simp only [compileScript, bind_eq, inspect]
  cases Code.compile filename source m.options.placeholderWidth with
  | error e => exact .inl ⟨e, rfl⟩
  | ok unit =>
    simp only [commit]
    cases m.program.commit unit with
    | error e => exact .inl ⟨e, rfl⟩
    | ok committed => exact .inr ⟨_, committed.1, rfl⟩

end Machine

/-- A function outside of the code. -/
def Callee.Outside (callee : Callee) : Prop :=
  ∃ v, callee = .value v ∧ IsOutside v

namespace Action

variable {W : Type} {outside : Prop} {l : Machine W}

/-- What comes of a request with no execution around it: it is refused or skipped, or it makes one call, whose
end it notes. -/
inductive Once (outside : Prop) (l : Machine W) : Action W Value → Prop
  | done {n : Machine W} (r : Except Error Value) (hdepth : n.depth = l.depth) : Once outside l (.done n r)
  | needsFile (path : String) : Once outside l (.needsFile path)
  | call (program : Code.Program) {callee : Callee} (receiver : Value) (args : List Value)
    {next : Machine W → Except Error Value → Action W Value} (hcallee : callee.Outside → outside)
    (hnext : ∀ n r, ∃ p, next n r = .done (Machine.concluded { n with program := p } r) r) :
    Once outside l (.call { l.cleared with program := program } callee receiver args next)

theorem once_runScript (filename source : String) :
    ((l.cleared.runScript filename source).bind fun n r => .done (n.concluded r) r).Once outside l := by
  unfold Machine.runScript Action.ofWork
  rcases Machine.compileScript_cases filename source l.cleared with ⟨e, hcompile⟩ | ⟨part, program, hcompile⟩
  · rw [hcompile]
    exact .done _ (Machine.depth_concluded _ _)
  · rw [hcompile]
    refine .call program l.receiver [] ?_ fun n r => ⟨_, rfl⟩
    rintro ⟨v, hv, -⟩
    cases hv

theorem once_runFile (env : Embedding W) (path : String) :
    ((Machine.runFile env l.cleared path).bind fun n r => .done (n.concluded r) r).Once outside l := by
  unfold Machine.runFile
  split
  · exact once_runScript path _
  · exact .done _ (Machine.depth_concluded _ _)
  · exact .needsFile path

end Action

/-- A request with no execution around it is refused or skipped, or makes one call. -/
theorem Machine.Request.once {W : Type} {env : Embedding W} {l : Machine W} (q : Machine.Request) (hdepth : l.depth = 0) :
    (q.action env l).Once q.Outside l := by
  have hcall (callee receiver : Value) (args : List Value) :
      (l.call callee receiver args).Once (IsOutside callee) l := by
    unfold Machine.call
    rw [Machine.entry_outermost hdepth]
    refine .call l.program receiver args ?_ fun n r => ⟨n.program, rfl⟩
    rintro ⟨v, hv, houtside⟩
    cases hv
    exact houtside
  cases q with
  | exec filename source =>
    show (l.exec filename source).Once _ l
    unfold Machine.exec
    rw [Machine.entry_outermost hdepth]
    exact Action.once_runScript filename source
  | execFile path =>
    show (Machine.execFile env l path).Once _ l
    unfold Machine.execFile
    rw [Machine.entry_outermost hdepth]
    exact Action.once_runFile env path
  | loadFile path =>
    show (Machine.loadFile env l path).Once _ l
    unfold Machine.loadFile
    rw [Machine.entry_outermost hdepth]
    split
    · exact .done _ rfl
    · exact Action.once_runFile env path
  | call callee receiver args => exact hcall callee receiver args
  | apply callee receiver args =>
    show (l.apply callee receiver args).Once _ l
    unfold Machine.apply
    split
    · exact hcall callee receiver _
    · exact .done _ rfl

namespace Machine.Request

variable {W : Type} {env : Embedding W}

/-- An embedder, or a function outside of the code, makes a request at some moment of some session. -/
def MadeOn (env : Embedding W) (q : Request) (l : Machine W) : Prop :=
  ∃ m next K, (Moment.going (.action m ((q.action env l).bind next)) K).Occurs env

/-- The moment at which a request is made. -/
def start (env : Embedding W) (l : Machine W) (q : Request) : Moment W :=
  .going (.action l (q.action env l)) []

theorem madeOn_furnished {env : Embedding Unit} {l : Machine Unit} (h : furnished? env = some l)
    (filename source : String) : (exec filename source).MadeOn env l := by
  unfold furnished? at h
  split at h
  · cases h
  · rename_i m hnew
    split at h
    · rename_i hregistered
      cases h
      refine ⟨m, .done, [], m, _, @opens_exec _ env _ _ _ _ hnew filename source, ?_⟩
      rw [Action.bind_done, Action.ofWork, hregistered]
      exact .refl
    · cases h

theorem tidy (q : Request) (l : Machine W) :
    (q.action env l).Tidy l := by
  cases q with
  | exec filename source => exact Machine.tidy_exec l filename source
  | execFile path =>
    show (Machine.execFile env l path).Tidy l
    refine Machine.tidy_entry (fun n => ?_) l
    unfold Machine.runFile
    split
    · exact Machine.tidy_runScript _ _ n
    · exact .refl n
    · trivial
  | loadFile path => exact Machine.tidy_loadFile path l
  | call callee receiver args => exact Machine.tidy_call l callee receiver args
  | apply callee receiver args =>
    show (l.apply callee receiver args).Tidy l
    unfold Machine.apply
    split
    · exact Machine.tidy_call l callee receiver _
    · exact .refl l

end Machine.Request

namespace Moment

variable {W : Type} {env : Embedding W} {M M' : Moment W}

/-- Nothing else follows at once from what only one thing follows from. -/
theorem Later.cases_of_next {M₁ : Moment W} (h : Later env M M') (hsoon : ∀ M₂, Soon env M M₂ → M₂ = M₁) :
    M' = M ∨ Later env M₁ M' := by
  rcases Relation.ReflTransGen.cases_head h with rfl | ⟨M₂, hnext, hrest⟩
  · exact .inl rfl
  · exact .inr (hsoon M₂ hnext ▸ hrest)

/-- Nothing follows from the end of all. -/
theorem Later.eq_of_ended {n : Machine W} {r : Except Error Value} (h : Later env (ended n r []) M) : M = ended n r [] := by
  rcases Relation.ReflTransGen.cases_head h with h | ⟨M₂, hnext | hinterrupts, -⟩
  · exact h.symm
  · cases hnext
  · cases hinterrupts

/-- The end of the call that a request makes is the end of the request. -/
theorem Later.closing {m : Machine W} {r : Except Error Value} {next : Machine W → Except Error Value → Action W Value}
    (hnext : ∀ n r, ∃ p, next n r = .done (Machine.concluded { n with program := p } r) r)
    (h : Later env (ended m r [.action next]) M) :
    M = ended m r [.action next] ∨ M = going (.action m (next m r)) []
      ∨ ∃ p, M = ended (Machine.concluded { m with program := p } r) r [] := by
  obtain ⟨p, hp⟩ := hnext m r
  have hanswered : ∀ M₂, Soon env (ended m r [.action next]) M₂ → M₂ = going (.action m (next m r)) [] := by
    rintro M₂ (hnext | hinterrupts)
    · cases hnext
      rfl
    · cases hinterrupts
  have hdone : ∀ M₂, Soon env (going (.action m (.done (Machine.concluded { m with program := p } r) r)) []) M₂ →
      M₂ = ended (Machine.concluded { m with program := p } r) r [] := by
    rintro M₂ (hnext | hinterrupts)
    · cases hnext
      rfl
    · cases hinterrupts
  rcases Later.cases_of_next h hanswered with rfl | hrest
  · exact .inl rfl
  · rw [hp] at hrest ⊢
    rcases Later.cases_of_next hrest hdone with rfl | hrest
    · exact .inr (.inl rfl)
    · exact .inr (.inr ⟨p, Later.eq_of_ended hrest⟩)

/-! ## The run that a request starts -/

/-- A request comes to an execution. -/
structure Executes (l : Machine W) (a : Action W Value) (m : Machine W) (start : Nat) (receiver : Value)
    (args : List Value) (next : Machine W → Except Error Value → Action W Value) : Prop where
  callee : ∃ callee, a = .call m callee receiver args next
    ∧ (callee = .code start ∨ ∃ place, callee = .value (.function place) ∧ place.val = start)
  machine : ∃ program, m = { l.cleared with program := program }
  next : ∀ n r, ∃ p, next n r = .done (Machine.concluded { n with program := p } r) r

/-- The run that a request starts, and what waits for it. -/
inductive Starts (l : Machine W) (a : Action W Value) : Moment W → List (Waiting W) → Prop
  | intro {m : Machine W} {start : Nat} {receiver : Value} {args : List Value}
    {next : Machine W → Except Error Value → Action W Value} {c : Cursor} (h : Executes l a m start receiver args next)
    (hload : Cursor.load m.program start .nop = .ok c) :
    Starts l a (going (.running (m.enterExecution receiver args) c [(m.enterExecution receiver args).depths]) [])
      [.execution l.depths l.receiver, .action next]

section Executes

variable {l m : Machine W} {a : Action W Value} {start : Nat} {receiver : Value} {args : List Value}
  {next : Machine W → Except Error Value → Action W Value}

theorem Executes.leads (h : Executes l a m start receiver args next) (m' : Machine W) (K : List (Waiting W)) :
    Leads env (going (.action m' a) K) (going (.execution m start receiver args) (.action next :: K)) := by
  obtain ⟨callee, rfl, rfl | ⟨place, rfl, rfl⟩⟩ := h.callee
  · exact .single .code
  · exact .tail (.single .value) .function

/-- The execution is part of whatever the request is part of. -/
theorem Executes.leads_bind (h : Executes l a m start receiver args next)
    (k : Machine W → Except Error Value → Action W Value) (m' : Machine W) (K : List (Waiting W)) :
    Leads env (going (.action m' (a.bind k)) K)
      (going (.execution m start receiver args) (.action (fun n r => (next n r).bind k) :: K)) := by
  obtain ⟨callee, rfl, rfl | ⟨place, rfl, rfl⟩⟩ := h.callee
  · exact .single .code
  · exact .tail (.single .value) .function

theorem Executes.same (h : Executes l a m start receiver args next) :
    m.depths = l.depths ∧ m.receiver = l.receiver ∧ m.depth = l.depth := by
  obtain ⟨program, rfl⟩ := h.machine
  exact ⟨rfl, rfl, rfl⟩

end Executes

/-- An activity is the only thing that follows from what calls it. -/
theorem Soon.eq_of_code {m m' : Machine W} {start : Nat} {receiver : Value} {args : List Value}
    {next : Machine W → Except Error Value → Action W Value} {K : List (Waiting W)}
    (h : Soon env (going (.action m' (.call m (.code start) receiver args next)) K) M) :
    M = going (.execution m start receiver args) (.action next :: K) := by
  rcases h with hnext | hinterrupts
  · cases hnext
    rfl
  · cases hinterrupts

theorem Soon.eq_of_value {m m' : Machine W} {callee receiver : Value} {args : List Value}
    {next : Machine W → Except Error Value → Action W Value} {K : List (Waiting W)}
    (h : Soon env (going (.action m' (.call m (.value callee) receiver args next)) K) M) :
    M = going (.call m callee receiver args) (.action next :: K) := by
  rcases h with hnext | hinterrupts
  · cases hnext
    rfl
  · cases hinterrupts

theorem Soon.eq_of_execution {m : Machine W} {start : Nat} {receiver : Value} {args : List Value} {c : Cursor}
    {K : List (Waiting W)} (hload : Cursor.load m.program start .nop = .ok c)
    (h : Soon env (going (.execution m start receiver args) K) M) :
    M = going (.running (m.enterExecution receiver args) c [(m.enterExecution receiver args).depths])
      (.execution m.depths m.receiver :: K) := by
  rcases h with hnext | hinterrupts
  · cases hnext with
    | unloaded hfails =>
      rw [hload] at hfails
      cases hfails
    | enter hload' =>
      rw [hload] at hload'
      cases hload'
      rfl
  · cases hinterrupts

/-- With no execution around it, a request for code is closed before its run starts, or what goes on is its run or
comes after that. -/
theorem Later.starts {outside : Prop} {l : Machine W} {a : Action W Value} (ha : a.Once outside l) (hinside : ¬ outside)
    (hdepth : l.depth = 0)
    (hloads : ∀ {m start receiver args next}, Executes l a m start receiver args next →
      Later env (going (.execution m start receiver args) [.action next]) M →
      ∃ c, Cursor.load m.program start .nop = .ok c)
    (hM : Later env (going (.action l a) []) M) (hrunning : 0 < M.machine.depth) :
    ∃ R K, Starts l a R K ∧ Later env (R.on K) M := by
  have hidle {M' : Moment W} (h : M'.machine.depth = l.depth) : M ≠ M' := by
    rintro rfl
    rw [h, hdepth] at hrunning
    exact absurd hrunning (Nat.lt_irrefl 0)
  have hexecution {m : Machine W} {start : Nat} {receiver : Value} {args : List Value}
      {next : Machine W → Except Error Value → Action W Value} (h : Executes l a m start receiver args next)
      (hafter : Later env (going (.execution m start receiver args) [.action next]) M) :
      ∃ R K, Starts l a R K ∧ Later env (R.on K) M := by
    obtain ⟨c, hload⟩ := hloads h hafter
    obtain ⟨hdepths, hreceiver, hcount⟩ := h.same
    rcases Later.cases_of_next hafter fun M₂ hsoon => hsoon.eq_of_execution hload with h' | hrest
    · exact absurd h' (hidle hcount)
    · rw [hdepths, hreceiver] at hrest
      exact ⟨_, _, .intro h hload, hrest⟩
  cases ha with
  | @done n r hn =>
    rcases Relation.ReflTransGen.cases_head hM with h | ⟨M₂, hnext | hinterrupts, hrest⟩
    · exact absurd h.symm (hidle rfl)
    · cases hnext
      exact absurd (Later.eq_of_ended hrest) (hidle hn)
    · cases hinterrupts
  | needsFile path =>
    rcases Relation.ReflTransGen.cases_head hM with h | ⟨M₂, hnext | hinterrupts, hrest⟩
    · exact absurd h.symm (hidle rfl)
    · cases hnext
    · cases hinterrupts
  | @call program callee receiver args next hcallee hnext =>
    cases callee with
    | code start =>
      rcases Later.cases_of_next hM fun M₂ hsoon => hsoon.eq_of_code with h | hrest
      · exact absurd h (hidle rfl)
      · exact hexecution ⟨⟨_, rfl, .inl rfl⟩, ⟨program, rfl⟩, hnext⟩ hrest
    | value v =>
      rcases Later.cases_of_next hM fun M₂ hsoon => hsoon.eq_of_value with h | hrest
      · exact absurd h (hidle rfl)
      · rcases Relation.ReflTransGen.cases_head hrest with h | ⟨M₂, hsoon | hinterrupts, hafter⟩
        · exact absurd h.symm (hidle rfl)
        · cases hsoon with
          | function => exact hexecution ⟨⟨_, rfl, .inr ⟨_, rfl, rfl⟩⟩, ⟨program, rfl⟩, hnext⟩ hafter
          | outside houtside => exact absurd (hcallee ⟨v, rfl, houtside⟩) hinside
          | uncallable houtside hcode =>
            obtain h | h | ⟨p, h⟩ := Later.closing hnext hafter
            · exact absurd h (hidle rfl)
            · exact absurd h (hidle rfl)
            · exact absurd h (hidle rfl)
        · cases hinterrupts

/-- The run that a request starts is part of whatever the request is part of. -/
theorem Starts.leads {l m : Machine W} {a : Action W Value} {R : Moment W} {K : List (Waiting W)} (h : Starts l a R K)
    (k : Machine W → Except Error Value → Action W Value) (K' : List (Waiting W)) :
    ∃ K'', Leads env (going (.action m (a.bind k)) K') (R.on K'') := by
  cases h with
  | intro h hload => exact ⟨_, .tail (h.leads_bind k m K') (.enter hload)⟩

/-- After the run that a request started, the request is over but for its account. -/
theorem Starts.after {l n : Machine W} {a : Action W Value} {R : Moment W} {K : List (Waiting W)} {r : Except Error Value}
    (h : Starts l a R K) (hM : Later env (ended n r K) M) :
    M = ended n r K
      ∨ ∃ next, Later env (ended (n.leaveExecution l.depths l.receiver r).1 (n.leaveExecution l.depths l.receiver r).2
          [.action next]) M
        ∧ ∀ n r, ∃ p, next n r = .done (Machine.concluded { n with program := p } r) r := by
  cases h with
  | @intro m start receiver args next c h hload =>
    have hleft : ∀ M₂, Soon env (ended n r [.execution l.depths l.receiver, .action next]) M₂ →
        M₂ = ended (n.leaveExecution l.depths l.receiver r).1 (n.leaveExecution l.depths l.receiver r).2
          [.action next] := by
      rintro M₂ (hsoon | hinterrupts)
      · cases hsoon
        rfl
      · cases hinterrupts
    rcases Later.cases_of_next hM hleft with h' | hrest
    · exact .inl h'
    · exact .inr ⟨next, hrest, h.next⟩

/-- When its run is over, a request comes to its end. -/
theorem Starts.ends {l : Machine W} {a : Action W Value} {R : Moment W} {K : List (Waiting W)} (h : Starts l a R K)
    (n : Machine W) (r : Except Error Value) : ∃ n' r', Leads env (ended n r K) (ended n' r' []) := by
  cases h with
  | @intro m start receiver args next c hexecutes hload =>
    generalize hleft : n.leaveExecution l.depths l.receiver r = left
    obtain ⟨p, hp⟩ := hexecutes.next left.1 left.2
    have hafter : Next env (ended n r [.execution l.depths l.receiver, .action next]) (ended left.1 left.2 [.action next]) :=
      hleft ▸ .left
    have hdone : Next env (going (.action left.1 (next left.1 left.2)) [])
        (ended (Machine.concluded { left.1 with program := p } left.2) left.2 []) := by
      rw [hp]
      exact .done
    exact ⟨_, _, .head hafter (.head .answered (.single hdone))⟩

end Moment

end ScriptEngine
