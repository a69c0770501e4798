import ScriptEngine.Proofs.Machine.Rows
/-!
What machines note about their runs.

A machine counts its executions, and notes where code failed last, the lines on the way to a failure, the recorded
error, and whether it was asked to stop (`Machine.notes`). Instructions and collections leave the notes alone, and so
does all that functions outside of the code do by themselves, but for two things: the outermost entry resets
trace and error, and an embedder may ask for a stop (`Machine.Heeds`).
-/

namespace ScriptEngine

namespace Machine

variable {W α β : Type} {env : Embedding W} {m m' n l : Machine W}

/-! ## Notes -/

/-- What a machine notes about its runs. -/
structure Notes where
  depth : Nat
  failedAt : Nat
  trace : List TraceEntry
  interrupted : Bool
  lastError : Option Error

/-- What a machine notes about its runs. -/
def notes (m : Machine W) : Notes :=
  ⟨m.depth, m.failedAt, m.trace, m.interrupted, m.lastError⟩

theorem notes_of_background (h : n.background = m.background) : n.notes = m.notes := by
  simp only [background, Background.mk.injEq] at h
  obtain ⟨-, -, -, -, -, hdepth, hfailed, htrace, hflag, -, hlast⟩ := h
  simp only [notes, hdepth, hfailed, htrace, hflag, hlast]

theorem notes_made {work : Work W α} (h : Made work) (m : Machine W) : (leftBy (work m)).notes = m.notes :=
  notes_of_background (h m).background

theorem notes_collect (m : Machine W) (full : Bool) : (m.collect full).1.notes = m.notes := by
  unfold collect
  dsimp only
  split <;> rfl

theorem notes_collectIfNeeded (m : Machine W) : m.collectIfNeeded.notes = m.notes := by
  unfold collectIfNeeded
  split
  · exact notes_collect m false
  · rfl

theorem notes_step (env : Embedding W) (c : Cursor) (m : Machine W) :
    (leftBy (advance env c m.collectIfNeeded)).notes = m.notes :=
  (notes_made (made_advance env c) _).trans (notes_collectIfNeeded m)

theorem notes_leaveHost (m : Machine W) : m.leaveHost.notes = m.notes := by
  unfold leaveHost
  split <;> rfl

theorem notes_compileScript (filename source : String) (m : Machine W) :
    (leftBy (compileScript filename source m)).notes = m.notes := by
  simp only [compileScript, bind_eq, inspect]
  cases Code.compile filename source m.options.placeholderWidth with
  | error e => rfl
  | ok unit =>
    simp only [commit]
    cases m.program.commit unit <;> rfl

theorem notes_printValues (args : List Value) (m : Machine W) : (leftBy (printValues env args m)).notes = m.notes := by
  simp only [printValues, bind_eq, inspect, writeLine]
  cases m.output.broken <;> rfl

/-- What work on the machine may do to its notes when no code runs by it: within an execution only a stop may be
asked for. -/
structure Heeds (m n : Machine W) : Prop where
  depth : n.depth = m.depth
  failedAt : n.failedAt = m.failedAt
  flag : m.interrupted = true → n.interrupted = true
  trace : 0 < m.depth → n.trace = m.trace
  lastError : 0 < m.depth → n.lastError = m.lastError

theorem Heeds.of_notes (h : n.notes = m.notes) : m.Heeds n :=
  ⟨congrArg Notes.depth h, congrArg Notes.failedAt h, fun hup => (congrArg Notes.interrupted h).trans hup,
    fun _ => congrArg Notes.trace h, fun _ => congrArg Notes.lastError h⟩

theorem Heeds.refl (m : Machine W) : m.Heeds m :=
  .of_notes rfl

theorem Heeds.trans (h : m.Heeds l) (h' : l.Heeds n) : m.Heeds n where
  depth := h'.depth.trans h.depth
  failedAt := h'.failedAt.trans h.failedAt
  flag hup := h'.flag (h.flag hup)
  trace hdepth := (h'.trace (h.depth ▸ hdepth)).trans (h.trace hdepth)
  lastError hdepth := (h'.lastError (h.depth ▸ hdepth)).trans (h.lastError hdepth)

/-- The outermost entry may do what it likes to trace and error. -/
theorem Heeds.of_outermost (hdepth : m.depth = 0) (hn : n.depth = m.depth) (hfailed : n.failedAt = m.failedAt)
    (hflag : n.interrupted = m.interrupted) : m.Heeds n where
  depth := hn
  failedAt := hfailed
  flag hup := hflag.trans hup
  trace hpos := absurd hdepth hpos.ne'
  lastError hpos := absurd hdepth hpos.ne'

end Machine

/-! ## Actions -/

namespace Action

variable {W α β : Type} {m m' : Machine W}

/-- What an action does by itself, up to its calls and between them, heeds the notes, as long as its calls keep the
count of executions. -/
def Heedful (m : Machine W) : Action W α → Prop
  | done m' _ => m.Heeds m'
  | call m' _ _ _ next => m.Heeds m' ∧ ∀ n r, n.depth = m'.depth → (next n r).Heedful n
  | needsFile _ => True

theorem Heedful.of_heeds (hm : m.Heeds m') {a : Action W α} (h : a.Heedful m') : a.Heedful m := by
  cases a with
  | done n r => exact hm.trans h
  | call n callee receiver args next => exact ⟨hm.trans h.1, h.2⟩
  | needsFile path => trivial

theorem Heedful.bind {a : Action W α} {next : Machine W → Except Error α → Action W β} (h : a.Heedful m)
    (hnext : ∀ n r, n.depth = m.depth → (next n r).Heedful n) : (a.bind next).Heedful m := by
  induction a generalizing m with
  | done n r => exact .of_heeds h (hnext n r h.depth)
  | call n callee receiver args rest ih =>
    refine ⟨h.1, fun l r hl => ih l r (h.2 l r hl) fun l' r' hl' => hnext l' r' ?_⟩
    exact hl'.trans (hl.trans h.1.depth)
  | needsFile path => trivial

theorem heedful_ofWork {work : Machine.Work W α} (h : (leftBy (work m)).notes = m.notes) : (ofWork work m).Heedful m := by
  unfold ofWork
  split
  · rename_i a n hwork
    rw [hwork] at h
    exact .of_notes h
  · rename_i e n hwork
    rw [hwork] at h
    exact .of_notes h

end Action

/-- The functions of an embedder heed the notes of the machine. -/
structure Embedding.Heedful {W : Type} (env : Embedding W) : Prop where
  natives : ∀ f ∈ env.natives, ∀ m receiver args, (f.call m receiver args).Heedful m
  host : ∀ host, env.host = some host → ∀ m f args, (host.call m f args).Heedful m

namespace Machine

variable {W α : Type} {env : Embedding W}

/-- Within an execution an entry is its body; the outermost entry may do what it likes. -/
theorem heedful_entry {body : Machine W → Action W α} (hbody : ∀ n, (body n).Heedful n) (m : Machine W) :
    (m.entry body).Heedful m := by
  unfold entry
  split
  · rename_i hdepth
    have hreset : m.Heeds { m with lastError := none, trace := [] } := .of_outermost hdepth rfl rfl rfl
    refine .of_heeds hreset ((hbody _).bind fun n r hn => ?_)
    replace hn : n.depth = 0 := hn.trans hdepth
    cases r with
    | ok a => exact .refl n
    | error e => exact .of_outermost hn rfl rfl rfl
  · exact hbody m

theorem heedful_runScript (filename source : String) (m : Machine W) : (m.runScript filename source).Heedful m := by
  refine (Action.heedful_ofWork (notes_compileScript filename source m)).bind fun n committed _ => ?_
  cases committed with
  | error e => exact .refl n
  | ok part => exact ⟨.refl n, fun l r _ => .of_notes rfl⟩

theorem heedful_runFile (path : String) (m : Machine W) : (runFile env m path).Heedful m := by
  unfold runFile
  split
  · exact heedful_runScript _ _ m
  · exact .refl m
  · trivial

theorem heedful_loadFile (path : String) (m : Machine W) : (loadFile env m path).Heedful m := by
  refine heedful_entry (fun n => ?_) m
  split
  · exact .refl n
  · exact heedful_runFile path n

theorem heedful_builtin (b : Builtin) (m : Machine W) (receiver : Value) (args : List Value) :
    (builtin env m b receiver args).Heedful m := by
  have hmade {work : Work W Value} (hwork : Made work) : (Action.ofWork work m).Heedful m :=
    Action.heedful_ofWork (notes_made hwork m)
  cases b with
  | print => exact Action.heedful_ofWork (notes_printValues args m)
  | die => exact hmade (made_die args)
  | gc =>
    show (Action.ofWork (collectNow args) m).Heedful m
    refine Action.heedful_ofWork ?_
    rw [collectNow_eq]
    exact notes_collect m _
  | ffi => exact hmade (made_ffi env args)
  | freeCallback =>
    show (Action.ofWork (freeCallback args) m).Heedful m
    exact Action.heedful_ofWork rfl
  | arrayBuffer => exact hmade (made_newBuffer args)
  | dataView => exact hmade (made_newView args)
  | load =>
    show (load env m args).Heedful m
    unfold load
    split
    · exact heedful_loadFile _ m
    · exact .refl m
  | apply =>
    show (applyReceiver m receiver args).Heedful m
    unfold applyReceiver
    split
    · exact ⟨.refl m, fun n r _ => .refl n⟩
    · exact .refl m
  | push => exact hmade (made_pushItems receiver args)
  | charCodeAt | indexOf => exact .refl m
  | slice => exact hmade (made_slice receiver args)
  | toText => exact hmade (made_toText receiver)

theorem heedful_callForeign (henv : env.Heedful) (m : Machine W) (id : SignatureId) (args : List Value) :
    (callForeign env m id args).Heedful m := by
  unfold callForeign Action.ofWork
  rcases acceptCall_cases env id args m with ⟨e, haccept⟩ | ⟨call, signature, marshaled, haccept⟩
  · rw [haccept]
    exact .refl m
  · rw [haccept]
    have hopen : m.Heeds { m with
        callbacks := (register m.callbacks signature args marshaled).1, nativeCalls := m.nativeCalls + 1 } := .of_notes rfl
    refine .of_heeds hopen
      ((henv.host call.host (host_of_acceptCall haccept) _ call.func call.args).bind fun l r _ => ?_)
    have hclose : l.Heeds { l with nativeCalls := l.nativeCalls - 1 } := .of_notes rfl
    cases r with
    | error e => exact hclose
    | ok a => exact .of_heeds hclose (Action.heedful_ofWork (notes_made (made_toValue _ a) _))

/-- All functions outside of the code heed the notes, if those of the embedder do. -/
theorem heedful_callHost (henv : env.Heedful) (m : Machine W) (callee receiver : Value) (args : List Value) :
    (callHost env m callee receiver args).Heedful m := by
  unfold callHost
  split
  · rename_i id
    split
    · exact heedful_builtin _ m receiver args
    · split
      · rename_i f hnative
        exact henv.natives f (mem_of_native? hnative) m receiver args
      · exact .refl m
  · exact heedful_callForeign henv m _ args
  · exact .refl m

end Machine

/-! ## Moments -/

/-- What waits, when some executions are under way, `base` of them further out: what waits heeds the notes when it
goes on with as many. -/
def Waiting.Counted {W : Type} (base : Nat) : Nat → List (Waiting W) → Prop
  | d, [] => d = base
  | d, .execution _ _ :: K => 0 < d ∧ Counted base (d - 1) K
  | d, .action next :: K => (∀ n r, n.depth = d → (next n r).Heedful n) ∧ Counted base d K
  | d, .run _ _ _ _ :: K | d, .call _ _ :: K => Counted base d K

theorem Waiting.Counted.base_le {W : Type} {base d : Nat} {K : List (Waiting W)} (h : Counted base d K) : base ≤ d := by
  induction K generalizing d with
  | nil => exact Nat.le_of_eq (Eq.symm h)
  | cons w K ih =>
    cases w with
    | execution start receiver => exact Nat.le_trans (ih h.2) (Nat.sub_le d 1)
    | action next => exact ih h.2
    | run offset slot next entries | call size receiver => exact ih h

namespace Moment

variable {W : Type} {env : Embedding W} {M M' : Moment W} {base : Nat}

/-- What goes on heeds the notes. -/
def NowHeedful : Moment W → Prop
  | going (.action m a) _ => a.Heedful m
  | _ => True

/-- What goes on, and what waits for it, heeds the notes, and the executions under way are counted. -/
structure Heedful (base : Nat) (M : Moment W) : Prop where
  now : M.NowHeedful
  counted : Waiting.Counted base M.machine.depth M.waiting

theorem Heedful.base_le (h : M.Heedful base) : base ≤ M.machine.depth :=
  h.counted.base_le

theorem Next.heedful (henv : env.Heedful) (h : Next env M M') (hM : M.Heedful base) : M'.Heedful base := by
  have hsame {m n : Machine W} {K : List (Waiting W)} (hn : n.depth = m.depth) (hK : Waiting.Counted base m.depth K) :
      Waiting.Counted base n.depth K := hn ▸ hK
  have hstep {m : Machine W} {c : Cursor} {r : EStateM.Result Error (Machine W) Machine.Step}
      (hadvance : Machine.advance env c m.collectIfNeeded = r) : (leftBy r).depth = m.depth :=
    hadvance ▸ congrArg Machine.Notes.depth (Machine.notes_step env c m)
  have hfailure (m : Machine W) (offset : Nat) (e : Error) : (m.noteFailure offset e).depth = m.depth := by
    cases e <;> rfl
  have hleave (m : Machine W) : m.leaveHost.depth = m.depth := congrArg Machine.Notes.depth (Machine.notes_leaveHost m)
  obtain ⟨hnow, hK⟩ := hM
  cases h with
  | stopped hup => exact ⟨trivial, hK⟩
  | failed hgo hadvance => exact ⟨trivial, hsame ((hfailure _ _ _).trans (hstep hadvance)) hK⟩
  | finished hgo hadvance | goOn hgo hadvance => exact ⟨trivial, hsame (hstep hadvance) hK⟩
  | host hgo hadvance => exact ⟨Machine.heedful_callHost henv _ _ _ _, hsame (hstep hadvance) hK⟩
  | resumed => exact ⟨trivial, hsame (hleave _) hK⟩
  | hostFailed => exact ⟨trivial, hsame ((hfailure _ _ _).trans (hleave _)) hK⟩
  | unloaded hload | enter hload => exact ⟨trivial, Nat.succ_pos _, hK⟩
  | @left m K r start receiver =>
    have hdepth : (m.leaveExecution start receiver r).1.depth = m.depth - 1 :=
      congrArg Prod.fst (Machine.account_leaveExecution m start receiver r)
    refine ⟨trivial, ?_⟩
    show Waiting.Counted base (m.leaveExecution start receiver r).1.depth K
    rw [hdepth]
    exact hK.2
  | function => exact ⟨trivial, hK⟩
  | outside h => exact ⟨Machine.heedful_callHost henv _ _ _ _, hK⟩
  | uncallable h hcode => exact ⟨trivial, hK⟩
  | outsideLeft => exact ⟨trivial, hK⟩
  | done => exact ⟨trivial, hsame hnow.depth hK⟩
  | code | value => exact ⟨trivial, hnow.2, hsame hnow.1.depth hK⟩
  | answered => exact ⟨hK.1 _ _ rfl, hK.2⟩

theorem Soon.heedful (henv : env.Heedful) (h : Soon env M M') (hM : M.Heedful base) : M'.Heedful base := by
  rcases h with hnext | ⟨m, c, entries, K⟩
  · exact hnext.heedful henv hM
  · exact ⟨trivial, hM.counted⟩

theorem Later.heedful (henv : env.Heedful) (h : Later env M M') (hM : M.Heedful base) : M'.Heedful base := by
  induction h with
  | refl => exact hM
  | tail _ hsoon ih => exact hsoon.heedful henv ih

/-- Within an execution, the recorded error is left alone. -/
theorem Next.lastError (h : Next env M M') (hM : M.Heedful base) (hbase : 0 < base) :
    M'.machine.lastError = M.machine.lastError := by
  have hdepth : 0 < M.machine.depth := Nat.lt_of_lt_of_le hbase hM.base_le
  have hstep {m m' : Machine W} {c : Cursor} {r : EStateM.Result Error (Machine W) Machine.Step}
      (hadvance : Machine.advance env c m.collectIfNeeded = r) (hr : leftBy r = m') : m'.lastError = m.lastError := by
    have hnotes := congrArg Machine.Notes.lastError (Machine.notes_step env c m)
    rw [hadvance, hr] at hnotes
    exact hnotes
  have hfailure (m : Machine W) (offset : Nat) (e : Error) : (m.noteFailure offset e).lastError = m.lastError := by
    cases e <;> rfl
  have hleave (m : Machine W) : m.leaveHost.lastError = m.lastError :=
    congrArg Machine.Notes.lastError (Machine.notes_leaveHost m)
  cases h with
  | stopped hup => rfl
  | failed hgo hadvance => exact (hfailure _ _ _).trans (hstep hadvance rfl)
  | finished hgo hadvance | goOn hgo hadvance | host hgo hadvance => exact hstep hadvance rfl
  | resumed => exact hleave _
  | hostFailed => exact (hfailure _ _ _).trans (hleave _)
  | unloaded hload | enter hload => rfl
  | @left m K r start receiver =>
    show (m.leaveExecution start receiver r).1.lastError = m.lastError
    obtain ⟨trace, interrupted, hend, -⟩ := Machine.leaveExecution_eq m start receiver r
    rw [hend]
    rfl
  | function | outside h | uncallable h hcode | outsideLeft | answered => rfl
  | done => exact hM.now.lastError hdepth
  | code | value => exact hM.now.1.lastError hdepth

theorem Later.lastError (henv : env.Heedful) (h : Later env M M') (hM : M.Heedful base) (hbase : 0 < base) :
    M'.machine.lastError = M.machine.lastError := by
  induction h with
  | refl => rfl
  | tail hlater hsoon ih =>
    rcases hsoon with hnext | ⟨m, c, entries, K⟩
    · exact (hnext.lastError (Later.heedful henv hlater hM) hbase).trans ih
    · exact ih

end Moment

end ScriptEngine
