import ScriptEngine.Proofs.Machine.Notes
/-!
Obligations.

A function outside of the code obliges if it does not fail when a stop was asked for while it was at work: it may pass
on that a call of its own was stopped, or give a value that the machine takes instead (`Action.Obliging`). If the
functions of an embedder oblige, then so do all functions outside of the code (`Machine.obliges_callHost`).
-/

namespace ScriptEngine

namespace Machine

variable {W α : Type}

/-- A failure, as opposed to a value and to a stop. -/
def Fails (r : Except Error α) : Prop :=
  ∃ kind message, r = .error (.failure kind message)

@[simp] theorem not_fails_ok (a : α) : ¬ Fails (.ok a : Except Error α) := by
  rintro ⟨kind, message, h⟩
  cases h

@[simp] theorem not_fails_exit : ¬ Fails (.error .exit : Except Error α) := by
  rintro ⟨kind, message, h⟩
  cases h

theorem eq_exit_of_not_fails {e : Error} (h : ¬ Fails (.error e : Except Error α)) : e = .exit := by
  cases e with
  | exit => rfl
  | failure kind message => exact absurd ⟨kind, message, rfl⟩ h

end Machine

open Machine (Fails)

/-- Calling it runs code, if it is there. -/
def Callee.RunsCode : Callee → Prop
  | .code _ => True
  | .value v => ∃ start, v = .function start

namespace Action

variable {W α β : Type} {m m' : Machine W}

/-- Whenever a stop was asked for by the time that an action ends, its end is of some kind, as long as the same is true
of the calls that it makes: they do not fail then, unless a function outside of the code was called after the stop was
asked for. -/
def Obliging (Q : Machine W → Except Error α → Prop) : Action W α → Prop
  | done n r => n.interrupted = true → Q n r
  | call m callee _ _ next =>
    ∀ n r, (n.interrupted = true → callee.RunsCode ∨ m.interrupted = false → ¬ Fails r) → (next n r).Obliging Q
  | needsFile _ => True

theorem obliging_of_all {Q : Machine W → Except Error α → Prop} (hQ : ∀ n r, Q n r) (a : Action W α) : a.Obliging Q := by
  induction a with
  | done n r => exact fun _ => hQ n r
  | call m callee receiver args next ih => exact fun n r _ => ih n r
  | needsFile path => trivial

theorem Obliging.mono {P Q : Machine W → Except Error α → Prop} {a : Action W α} (h : a.Obliging P)
    (hPQ : ∀ n r, P n r → Q n r) : a.Obliging Q := by
  induction a with
  | done n r => exact fun hup => hPQ n r (h hup)
  | call m callee receiver args next ih => exact fun n r hr => ih n r (h n r hr)
  | needsFile path => trivial

theorem Obliging.bind {P : Machine W → Except Error α → Prop} {Q : Machine W → Except Error β → Prop}
    {a : Action W α} {next : Machine W → Except Error α → Action W β} (h : a.Obliging P)
    (hnext : ∀ n r, (n.interrupted = true → P n r) → (next n r).Obliging Q) : (a.bind next).Obliging Q := by
  induction a with
  | done n r => exact hnext n r h
  | call m callee receiver args rest ih => exact fun n r hr => ih n r (h n r hr)
  | needsFile path => trivial

theorem obliging_done {Q : Machine W → Except Error α → Prop} (hm : m.interrupted = false) (r : Except Error α) :
    (done m r).Obliging Q :=
  fun hup => by rw [hm] at hup; cases hup

/-- Work does not ask for a stop. -/
theorem obliging_ofWork {Q : Machine W → Except Error α → Prop} {work : Machine.Work W α} (hm : m.interrupted = false)
    (h : (leftBy (work m)).notes = m.notes) : (ofWork work m).Obliging Q := by
  have hflag : (leftBy (work m)).interrupted = false := (congrArg Machine.Notes.interrupted h).trans hm
  unfold ofWork
  split
  · rename_i a n hwork
    rw [hwork] at hflag
    exact obliging_done hflag _
  · rename_i e n hwork
    rw [hwork] at hflag
    exact obliging_done hflag _

end Action

/-- The result of native code is one that the machine takes. -/
def Ffi.Accepted {W : Type} (f : Ffi.ForeignFunction) (n : Machine W) (r : Except Error Ffi.Arg) : Prop :=
  ¬ Fails r ∧ ∀ a, r = .ok a → ∃ v h, Ffi.Arg.toValue n.heap f.signature.ret a = .ok v h

/-- The functions of an embedder oblige: when a stop was asked for while they were at work, they pass it on, or give a
result that the machine takes. -/
structure Embedding.Obliging {W : Type} (env : Embedding W) : Prop where
  natives : ∀ f ∈ env.natives, ∀ m receiver args, m.interrupted = false →
    (f.call m receiver args).Obliging fun _ r => ¬ Fails r
  host : ∀ host, env.host = some host → ∀ m f args, m.interrupted = false →
    (host.call m f args).Obliging (Ffi.Accepted f)

namespace Machine

variable {W α : Type} {env : Embedding W} {m : Machine W}

/-- An action that obliges, when no stop was asked for yet. -/
abbrev Obliges (a : Action W Value) : Prop :=
  a.Obliging fun _ r => ¬ Fails r

theorem obliges_entry {body : Machine W → Action W Value} (hm : m.interrupted = false)
    (hbody : ∀ n : Machine W, n.interrupted = false → Obliges (body n)) : Obliges (m.entry body) := by
  unfold entry
  split
  · have hreset : ({ m with lastError := none, trace := [] } : Machine W).interrupted = false := hm
    refine (hbody _ hreset).bind fun n r hr => ?_
    cases r with
    | ok v => exact hr
    | error e => exact hr
  · exact hbody m hm

theorem obliges_runScript (filename source : String) (hm : m.interrupted = false) :
    Obliges (m.runScript filename source) := by
  have hcompile := notes_compileScript filename source m
  have hcompiled : ∀ Q : Machine W → Except Error (Nat × Nat) → Prop,
      (Action.ofWork (compileScript filename source) m).Obliging Q := fun Q => Action.obliging_ofWork hm hcompile
  refine (hcompiled fun _ _ => False).bind fun n committed hn => ?_
  cases committed with
  | error e => exact fun hup => (hn hup).elim
  | ok part => exact fun l r hr hup => hr hup (.inl trivial)

theorem obliges_runFile (path : String) (hm : m.interrupted = false) : Obliges (runFile env m path) := by
  unfold runFile
  split
  · exact obliges_runScript _ _ hm
  · exact Action.obliging_done hm _
  · trivial

theorem obliges_loadFile (path : String) (hm : m.interrupted = false) : Obliges (loadFile env m path) := by
  refine obliges_entry hm fun n hn => ?_
  split
  · exact Action.obliging_done hn _
  · exact obliges_runFile path hn

theorem obliges_builtin (b : Builtin) (hm : m.interrupted = false) (receiver : Value) (args : List Value) :
    Obliges (builtin env m b receiver args) := by
  have hmade {work : Work W Value} (hwork : Made work) : Obliges (.ofWork work m) :=
    Action.obliging_ofWork hm (notes_made hwork m)
  cases b with
  | print => exact Action.obliging_ofWork hm (notes_printValues args m)
  | die => exact hmade (made_die args)
  | gc =>
    show Obliges (.ofWork (collectNow args) m)
    refine Action.obliging_ofWork hm ?_
    rw [collectNow_eq]
    exact notes_collect m _
  | ffi => exact hmade (made_ffi env args)
  | freeCallback =>
    show Obliges (.ofWork (freeCallback args) m)
    exact Action.obliging_ofWork hm rfl
  | arrayBuffer => exact hmade (made_newBuffer args)
  | dataView => exact hmade (made_newView args)
  | load =>
    show Obliges (load env m args)
    unfold load
    split
    · exact obliges_loadFile _ hm
    · exact Action.obliging_done hm _
  | apply =>
    show Obliges (applyReceiver m receiver args)
    unfold applyReceiver
    split
    · exact fun n r hr hup => hr hup (.inr hm)
    · exact Action.obliging_done hm _
  | push => exact hmade (made_pushItems receiver args)
  | charCodeAt | indexOf => exact Action.obliging_done hm _
  | slice => exact hmade (made_slice receiver args)
  | toText => exact hmade (made_toText receiver)

theorem obliges_callForeign (henv : env.Obliging) (id : SignatureId) (hm : m.interrupted = false) (args : List Value) :
    Obliges (callForeign env m id args) := by
  unfold callForeign Action.ofWork
  rcases acceptCall_cases env id args m with ⟨e, haccept⟩ | ⟨call, signature, marshaled, haccept⟩
  · rw [haccept]
    exact Action.obliging_done hm _
  · rw [haccept]
    have hopen : ({ m with
        callbacks := (register m.callbacks signature args marshaled).1
        nativeCalls := m.nativeCalls + 1 } : Machine W).interrupted = false := hm
    refine (henv.host call.host (host_of_acceptCall haccept) _ call.func call.args hopen).bind fun l r hr => ?_
    cases r with
    | error e =>
      intro hup
      rw [eq_exit_of_not_fails (hr hup).1]
      exact not_fails_exit
    | ok a =>
      by_cases hup : l.interrupted = true
      · obtain ⟨v, h, hvalue⟩ := (hr hup).2 a rfl
        have hconvert : onHeap (fun h => Ffi.Arg.toValue h call.func.signature.ret a)
            { l with nativeCalls := l.nativeCalls - 1 } = .ok v { l with nativeCalls := l.nativeCalls - 1, heap := h } := by
          simp only [onHeap, hvalue]
        dsimp only
        rw [hconvert]
        exact fun _ => not_fails_ok v
      · have hdown : ({ l with nativeCalls := l.nativeCalls - 1 } : Machine W).interrupted = false :=
          Bool.eq_false_iff.mpr hup
        exact Action.obliging_ofWork hdown (notes_made (made_toValue _ a) _)

/-- All functions outside of the code oblige, if those of the embedder do. -/
theorem obliges_callHost (henv : env.Obliging) (hm : m.interrupted = false) (callee receiver : Value)
    (args : List Value) : Obliges (callHost env m callee receiver args) := by
  unfold callHost
  split
  · rename_i id
    split
    · exact obliges_builtin _ hm receiver args
    · split
      · rename_i f hnative
        exact henv.natives f (mem_of_native? hnative) m receiver args hm
      · exact Action.obliging_done hm _
  · exact obliges_callForeign henv _ hm args
  · exact Action.obliging_done hm _

end Machine

end ScriptEngine
