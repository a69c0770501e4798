import ScriptEngine.Proofs.Machine.Activities
import ScriptEngine.Proofs.Machine.Widths
/-!
Sessions.

A session is what an embedder does with a new machine. All that goes on in a session `Occurs`: runs,
executions and calls, however deep they are nested in each other. Main statements, for scripts that assign to
variables and members only: every execution and every call leaves the stacks as it found them
(`calls_keep_stacks`), and at each offset of a unit the stacks have the same height above what the call in
which the code runs was entered with, whenever and wherever it runs (`stacks_balanced`).
-/

namespace ScriptEngine

open Code (Chart Charts Level Levels Program Instr Decoded)

namespace Machine

variable {W : Type} {S : Nat → Prop} {env : Embedding W} {m : Machine W}

/-! ## New machines -/

theorem within_bare (o : Options) (output : Output) (world : W) : (bare o output world).Within S := by
  intro r _
  simp only [bare, Move.machine, Move.renaming, Move.stay, Move.value, Roots.empty, Roots.map, Ffi.Callbacks.empty,
    Ffi.Callbacks.map, Array.map_empty, heap_bare, id]
  rfl

theorem within_new {o : Options} {output : Output} {world : W} (h : new o output world = .ok m) : m.Within S := by
  obtain ⟨hleft, -⟩ := (within_bare (S := S) o output world).work (f := fun _ u => u) (fun _ _ => parallel_install)
    (quiet_of_parallel (f := fun _ u => u) fun _ => parallel_install)
  unfold new at h
  split at h
  · rename_i heq
    rw [heq] at hleft
    cases h
    exact hleft
  · cases h

theorem program_new {o : Options} {output : Output} {world : W} (h : new o output world = .ok m) :
    m.program = .empty := by
  have hquiet := quiet_of_parallel (f := fun _ u => u) (fun _ => parallel_install) (bare o output world)
  unfold new at h
  split at h
  · rename_i heq
    rw [heq] at hquiet
    cases h
    exact hquiet.1
  · cases h

/-! ## What an embedder does -/

/-- What an embedder does with a new machine: it leaves the stacks alone but for its calls, and all
functions that it hands on come from the machine. -/
structure Opens (m : Machine W) (a : Action W Value) : Prop where
  new : ∃ o output world, Machine.new o output world = .ok m
  tidy : a.Tidy m
  honest : ∀ S : Nat → Prop, a.Honest S (Value.Within S)

theorem still_setGlobal (name : String) (v : Value) : Still (setGlobal name v : Work W Unit) :=
  still_bind (still_inspect _) fun _ => still_bind (still_onHeap _) fun _ => still_onHeap _

theorem still_registerNatives (env : Embedding W) : Still (registerNatives env) := by
  have hall : ∀ (fs : List (Native W)) (i : Nat), Still (setNatives i fs) := by
    intro fs
    induction fs with
    | nil => exact fun i => still_pure ()
    | cons f rest ih => exact fun i => still_bind (still_setGlobal _ _) fun _ => ih (i + 1)
  exact hall _ _

theorem parallel_registerNatives (env : Embedding W) {M : Move} :
    M.Parallel (fun u => u) (registerNatives env) (registerNatives env) := by
  have hall : ∀ (fs : List (Native W)) (i : Nat), M.Parallel (fun u => u) (setNatives i fs) (setNatives i fs) := by
    intro fs
    induction fs with
    | nil => exact fun i => parallel_pure _ _
    | cons f rest ih =>
      exact fun i => parallel_bind (k := fun u => u) (parallel_setGlobal f.name (.native (Embedding.nativeId i)))
        fun _ => ih (i + 1)
  exact hall _ _

/-- Registering functions and running a script is a session. -/
theorem opens_exec {o : Options} {output : Output} {world : W} (h : new o output world = .ok m)
    (filename source : String) :
    Opens m ((Action.ofWork (registerNatives env) m).bind fun n _ => n.exec filename source) := by
  have hquiet : Quiet (registerNatives env) := quiet_of_parallel (f := fun _ u => u) fun _ => parallel_registerNatives env
  refine ⟨⟨o, output, world, h⟩, ?_, fun S => ?_⟩
  · exact (Action.tidy_ofWork ((still_registerNatives env).orderly hquiet) m).bind fun n _ _ => tidy_exec n filename source
  · obtain ⟨hleft, -⟩ := (within_new (S := S) h).work (f := fun _ u => u) (fun _ _ => parallel_registerNatives env) hquiet
    exact (Action.honest_ofWork (Q := fun _ => True) hleft fun _ _ _ => trivial).bind fun n _ hn _ =>
      honest_exec hn filename source

/-! ## An embedder with a function of its own -/

/-- A function that calls another one and says whether that went well. -/
def attempt : Native Unit where
  name := "attempt"
  call m _ args := .call m (.value (arg args 0)) .undefined [] fun n result => .done n (.ok (.boolean result.isOk))

/-- An embedder with this function. -/
def guarding : Embedding Unit := ⟨#[attempt], none, fun _ _ => .unknown⟩

theorem guarding_steady : guarding.Steady where
  natives f hf m receiver args := by
    obtain rfl : f = attempt := by simpa [guarding] using hf
    exact ⟨.refl m, trivial, fun n result _ => Onward.refl n⟩
  nativesHonest f hf S m receiver args hm hreceiver hargs := by
    obtain rfl : f = attempt := by simpa [guarding] using hf
    exact ⟨⟨hm, Values.within_arg hargs 0, Value.within_undefined, fun _ hv => absurd hv List.not_mem_nil⟩,
      fun n result hn _ => ⟨hn, Result.within_ok (Value.within_of_ne fun _ h => by cases h)⟩⟩
  host host hhost := by cases hhost
  hostHonest host hhost := by cases hhost

/-- A script that survives the failure of a call. -/
def surviving : String := "attempt(function() { die(1); })"

/-- A session with this script. -/
def survivingSession : Option (Machine Unit × Action Unit Value) :=
  match new {} ⟨"", none⟩ () with
  | .ok m => some (m, (Action.ofWork (registerNatives guarding) m).bind fun n _ => n.exec "t.js" surviving)
  | .error _ => none

/-- What goes on in this session after some steps. -/
def surviving? (steps : Nat) : Option (Activity Unit) :=
  survivingSession.bind fun session => Activity.descendBy guarding steps (.action session.1 session.2)

/-- The script is all code that there is, and assigns to variables and members only. -/
def hasSurviving (m : Machine Unit) : Bool :=
  ((Source.parseScript surviving).toOption.any Source.Targets.script)
    && (m.program.parts.all fun part => (Code.compile "t.js" surviving 1).toOption == some part.data)
    && decide (m.program.size ≤ UInt64.size)

theorem plain_of_hasSurviving {m : Machine Unit} (h : hasSurviving m = true) :
    m.program.Plain ∧ m.program.size ≤ UInt64.size := by
  simp only [hasSurviving, Bool.and_eq_true, decide_eq_true_eq, Array.all_eq_true', beq_iff_eq] at h
  obtain ⟨⟨htargets, hparts⟩, hsize⟩ := h
  refine ⟨fun part hpart => ?_, hsize⟩
  cases hparse : Source.parseScript surviving with
  | error e =>
    rw [hparse] at htargets
    cases htargets
  | ok script =>
    rw [hparse] at htargets
    have hunit := hparts part hpart
    cases hcompile : Code.compile "t.js" surviving 1 with
    | error e =>
      rw [hcompile] at hunit
      cases hunit
    | ok unit =>
      rw [hcompile] at hunit
      cases hunit
      exact ⟨"t.js", surviving, 1, script, hcompile, hparse, htargets⟩

end Machine

namespace Activity

variable {W : Type} {env : Embedding W} {t : Activity W}

/-- It goes on at some time of some session. -/
def Occurs (env : Embedding W) (t : Activity W) : Prop :=
  ∃ m a, Machine.Opens m a ∧ Leads env (.action m a) t

/-- What is known of an activity that occurs, over a program that its code is part of. -/
theorem Occurs.sound (h : t.Occurs env) (henv : env.Steady) {T : Charts} {P : Program} (hT : T.Describe P)
    (hpart : t.machine.program.PartOf P) : t.Sound T P := by
  obtain ⟨m, a, hopens, hleads⟩ := h
  exact hleads.sound henv hT hopens.tidy (hopens.honest _) hpart

theorem Occurs.tidy (h : t.Occurs env) (henv : env.Steady) : t.Tidy := by
  obtain ⟨m, a, hopens, hleads⟩ := h
  exact (hleads.grows henv hopens.tidy).2

theorem Occurs.committed (h : t.Occurs env) (henv : env.Steady) : t.machine.program.Committed := by
  obtain ⟨m, a, hopens, hleads⟩ := h
  obtain ⟨_, _, _, hnew⟩ := hopens.new
  refine (hleads.grows henv hopens.tidy).1.committed ?_
  show m.program.Committed
  rw [Machine.program_new hnew]
  exact Program.committed_empty

end Activity

namespace Machine

variable {W : Type} {env : Embedding W}

/-- What is found after some steps occurs. -/
theorem occurs_of_surviving {steps : Nat} {found : Activity Unit → Bool} (h : (surviving? steps).any found = true) :
    ∃ t, t.Occurs guarding ∧ found t = true := by
  cases ht : surviving? steps with
  | none =>
    rw [ht] at h
    cases h
  | some t =>
  rw [ht] at h
  refine ⟨t, ?_, h⟩
  obtain ⟨session, hsession, hsteps⟩ := Option.bind_eq_some_iff.mp ht
  unfold survivingSession at hsession
  split at hsession
  · rename_i m hnew
    cases hsession
    exact ⟨m, _, opens_exec hnew "t.js" surviving, Activity.leads_of_descendBy hsteps⟩
  · cases hsession

/-! ## Executions and calls -/

/-- Every execution and every call, whatever it is nested in and whatever comes of it, leaves the stacks of
values, of calls, of pending calls, of scopes and of loops with the sizes and, but for where strings are, the
contents that it found, as long as all scripts assign to variables and members only. -/
theorem calls_keep_stacks (henv : env.Steady) {budget : Nat} {m n : Machine W} {receiver : Value} {args : List Value}
    {result : Except Error Value} (hplain : n.program.Plain) (hsmall : n.program.size ≤ UInt64.size) :
    (∀ start, (Activity.execution m start receiver args).Occurs env →
      execute env m start receiver args budget = .done n result → m.Kept n)
    ∧ ∀ callee, (Activity.call m callee receiver args).Occurs env →
      callValue env m callee receiver args budget = .done n result → m.Kept n := by
  refine ⟨fun start hoccurs hdone => ?_, fun callee hoccurs hdone => ?_⟩
  · have hgrows := (runsGrow henv budget).execute hdone
    obtain ⟨T, hT⟩ := Program.exists_charts (hgrows.committed (hoccurs.committed henv)) hplain hsmall
    obtain ⟨hwithin, hentry, hreceiver, hargs⟩ := hoccurs.sound henv hT hgrows.partOf
    exact ((runsKeep henv hT budget).execute hwithin hentry hreceiver hargs hdone (.refl _)).kept
  · have hgrows := (runsGrow henv budget).callValue hdone
    obtain ⟨T, hT⟩ := Program.exists_charts (hgrows.committed (hoccurs.committed henv)) hplain hsmall
    obtain ⟨hwithin, hcallee, hreceiver, hargs⟩ := hoccurs.sound henv hT hgrows.partOf
    exact ((runsKeep henv hT budget).callValue hwithin hcallee hreceiver hargs hdone (.refl _)).kept

/-- The call that the function of the embedder makes, and how it ends. -/
def survivingCall (t : Activity Unit) : Bool :=
  match t with
  | .call m callee .undefined [] =>
    match callValue guarding m callee .undefined [] 30 with
    | .done n (.error _) => hasSurviving n
    | _ => false
  | _ => false

theorem calls_keep_stacks_surviving : ∃ (m n : Machine Unit) (callee : Value) (e : Error),
    (Activity.call m callee .undefined []).Occurs guarding
      ∧ callValue guarding m callee .undefined [] 30 = .done n (.error e)
      ∧ n.program.Plain ∧ n.program.size ≤ UInt64.size ∧ m.Kept n := by
  have hcheck : (surviving? 11).any survivingCall = true := by decide +kernel
  obtain ⟨t, hoccurs, hcall⟩ := occurs_of_surviving hcheck
  unfold survivingCall at hcall
  split at hcall
  · rename_i m callee
    split at hcall
    · rename_i n e hdone
      obtain ⟨hplain, hsmall⟩ := plain_of_hasSurviving hcall
      exact ⟨m, n, callee, e, hoccurs, hdone, hplain, hsmall,
        (calls_keep_stacks guarding_steady hplain hsmall).2 callee hoccurs hdone⟩
    · cases hcall
  · cases hcall

/-! ## Heights -/

/-- A run with balanced stacks at a cursor in a unit, in a call that was entered with some sizes. -/
structure Balanced (env : Embedding W) (s : Chart) (m : Machine W) (c : Cursor) (entry : Depths) : Prop where
  /-- The level at the offset is on top of what the call was entered with. -/
  sizes : m.depths = entry.plus (s.levelAt c.pos)
  /-- An instruction finds as many values above that as it takes. -/
  operands : ∀ {ins firstEnd next}, Decoded.read c.code c.pos = .instr ins firstEnd next →
    ins.takes ≤ (s.levelAt c.pos).height
  /-- A call finds its callee above that, in the slot that the arguments were noted with. -/
  callee : ∀ {firstEnd next}, Decoded.read c.code c.pos = .instr .call firstEnd next →
    ∃ slot rest, (s.levelAt c.pos).pending = slot :: rest ∧ slot < (s.levelAt c.pos).height
  /-- Where the call goes back, no arguments are being computed. -/
  returns : AtReturn c → (s.levelAt c.pos).pending = []
  /-- The instruction leaves what the call was entered with, unless it goes back. -/
  stays : AtReturn c ∨ entry.data ≤ (leftBy (advance env c m.collectIfNeeded)).stack.size

/-- What is at a cursor in a session, over charts for all its code. -/
theorem Running.balanced {T : Charts} {P : Program} {start E : Skeleton} {outer : List Skeleton} {L : Level}
    {m : Machine W} {c : Cursor} (h : Running T P start m c E outer L) (hcharts : T.Describe P)
    (hprogram : m.program.PartOf P) (hwithin : m.Within (T.Entry P)) (env : Embedding W) :
    Balanced env (T c.code) m c E.depths := by
  have hof := hcharts.of_has h.place.has
  have hsizes (hlevel : L = (T c.code).levelAt c.pos) : m.depths = E.depths.plus ((T c.code).levelAt c.pos) := by
    rw [← depths_skeleton, h.skeleton, Skeleton.depths_plus, hlevel]
  have hstays : AtReturn c ∨ E.depths.data ≤ (leftBy (Machine.advance env c m.collectIfNeeded)).stack.size := by
    obtain ⟨-, ⟨least, hcomes, hleast⟩, -⟩ := h.step hcharts hprogram hwithin env
    refine hleast.symm.imp_right fun hvalues => ?_
    rw [← show least = E.depths.data from hvalues]
    exact (confined_of_comes hcomes).least
  rcases h.at_item hcharts hprogram with ⟨hpos, rfl⟩ | ⟨i, rfl, hat⟩
  · have hheader {ins : Instr} {firstEnd next : Nat} (hread : Decoded.read c.code c.pos = .instr ins firstEnd next) :
        ins = .header := by
      rw [hpos, hof.header] at hread
      cases hread
      rfl
    refine ⟨hsizes (by rw [hpos, hof.levelAt_zero]), fun hread => ?_, fun hread => ?_, fun hreturn => ?_, hstays⟩
    · rw [hheader hread]
      exact Nat.zero_le _
    · cases hheader hread
    · obtain ⟨_, _, hread⟩ := hreturn
      cases hheader hread
  · have hlevel : (T c.code).levelAt c.pos = (T c.code).levels i := by
      rw [hat.pos, hof.levelAt_place hat.index]
    refine ⟨hsizes hlevel.symm, fun hread => ?_, fun hread => ?_, fun hreturn => ?_, hstays⟩
    · rw [hlevel]
      exact hat.takes_le hread
    · rw [hlevel]
      obtain ⟨slot, rest, hpending, hslot, -⟩ := hat.agrees_of_read hread rfl
      exact ⟨slot, rest, hpending, hslot⟩
    · rw [hlevel]
      obtain ⟨_, _, hread⟩ := hreturn
      exact hat.agrees_of_read hread rfl

/-- For a unit that was compiled from a source that assigns to variables and members only there are levels,
one for each offset, at which the stacks are in every run of every session, above what the call in which the
code runs was entered with; from the start of each statement to its end the level rises by one value. All
scripts of the session are of that kind. -/
theorem stacks_balanced (henv : env.Steady) {filename source : String} {width : Nat} {unit : Array UInt8}
    {script : Source.Script} (hcompile : Code.compile filename source width = .ok unit)
    (hparse : Source.parseScript source = .ok script) (ht : Source.Targets.script script = true) :
    ∃ s : Chart, s.script = script ∧ s.Of unit
      ∧ (∀ span ∈ Code.Spans.body script.body 0,
        s.levelAt (s.place span.2) = (s.levelAt (s.place span.1)).push)
      ∧ ∀ {m : Machine W} {c : Cursor} {entry : Depths} {entries : List Depths},
        (Activity.running m c (entry :: entries)).Occurs env → c.code = unit → m.program.Plain →
        m.program.size ≤ UInt64.size → Balanced env s m c entry := by
  obtain ⟨s, rfl, hs⟩ := Code.exists_chart hcompile hparse ht
  refine ⟨s, rfl, hs, fun span hspan => ?_, fun {m c entry entries} hoccurs hunit hplain hsmall => ?_⟩
  · obtain ⟨horder, hlast, hpush⟩ := hs.levels.statements hspan
    rw [hs.levelAt_place hlast, hs.levelAt_place (Nat.lt_of_le_of_lt horder hlast), hpush]
  · obtain ⟨T, hT⟩ := Program.exists_charts (hoccurs.committed henv) hplain hsmall
    obtain ⟨hwithin, start, E, outer, L, hrunning, hentries⟩ := hoccurs.sound henv (hT.update hs) (.refl _)
    have hbalanced := hrunning.balanced (hT.update hs) (.refl _) hwithin env
    rw [hunit, Function.update_self] at hbalanced
    rwa [(List.cons.inj hentries).1]

/-- A run of the script in the function that it makes. -/
def survivingRun (t : Activity Unit) : Bool :=
  match t with
  | .running m c (_ :: _) => (Code.compile "t.js" surviving 1).toOption == some c.code && hasSurviving m
  | _ => false

theorem stacks_balanced_surviving : ∃ (unit : Array UInt8) (script : Source.Script) (s : Chart) (m : Machine Unit)
    (c : Cursor) (entry : Depths) (entries : List Depths),
    guarding.Steady ∧ Code.compile "t.js" surviving 1 = .ok unit ∧ Source.parseScript surviving = .ok script
      ∧ Source.Targets.script script = true ∧ (Activity.running m c (entry :: entries)).Occurs guarding
      ∧ c.code = unit ∧ m.program.Plain ∧ m.program.size ≤ UInt64.size ∧ Balanced guarding s m c entry := by
  have hcheck : (surviving? 18).any survivingRun = true := by decide +kernel
  obtain ⟨t, hoccurs, hrun⟩ := occurs_of_surviving hcheck
  unfold survivingRun at hrun
  split at hrun
  · rename_i m c entry entries
    rw [Bool.and_eq_true, beq_iff_eq] at hrun
    obtain ⟨hunit, hhas⟩ := hrun
    obtain ⟨hplain, hsmall⟩ := plain_of_hasSurviving hhas
    obtain ⟨htargets, -⟩ := Bool.and_eq_true_iff.mp (Bool.and_eq_true_iff.mp hhas).1
    cases hparse : Source.parseScript surviving with
    | error e =>
      rw [hparse] at htargets
      cases htargets
    | ok script =>
      rw [hparse] at htargets
      cases hcompile : Code.compile "t.js" surviving 1 with
      | error e =>
        rw [hcompile] at hunit
        cases hunit
      | ok unit =>
        rw [hcompile] at hunit
        cases hunit
        obtain ⟨s, -, -, -, hbalanced⟩ := stacks_balanced guarding_steady hcompile hparse htargets
        exact ⟨c.code, script, s, m, c, entry, entries, guarding_steady, rfl, rfl, htargets, hoccurs, rfl, hplain,
          hsmall, hbalanced hoccurs rfl hplain hsmall⟩
  · cases hrun

end Machine

end ScriptEngine
