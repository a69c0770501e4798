import ScriptEngine.Proofs.Machine.PairedCalls
/-!
Places that calls go back to.

A frame holds where its call goes back to, and that of an execution holds nothing. Within an execution the
frames of its callers stay, calls of code stand above its own (`InExecution`), and an instruction keeps it so
until it finishes, fails, or calls a function outside of the code (`StepKeepsSites`).
-/

namespace ScriptEngine

namespace Machine

variable {W α : Type} {env : Embedding W} {p : Pairing} {m : Machine W}

/-- The places that calls go back to, the outermost first. -/
def sites (m : Machine W) : List (Option Nat) :=
  m.frames.toList.map Frame.callSite

/-- Above the places at which an execution was entered is that of the execution itself, to which nothing goes
back, and above it are calls of code. -/
def InExecution (base sites : List (Option Nat)) : Prop :=
  ∃ calls : List Nat, sites = base ++ none :: calls.map some

variable {base : List (Option Nat)}

theorem InExecution.base_isPrefix {sites : List (Option Nat)} (h : InExecution base sites) : base <+: sites := by
  obtain ⟨calls, rfl⟩ := h
  exact List.prefix_append _ _

theorem InExecution.call {sites : List (Option Nat)} (h : InExecution base sites) (site : Nat) :
    InExecution base (sites ++ [some site]) := by
  obtain ⟨calls, rfl⟩ := h
  exact ⟨calls ++ [site], by simp⟩

/-- Frames that stand for each other go back to the same places. -/
theorem callSites_eq {l l' : List Frame} (h : List.Forall₂ p.Frames l l') :
    l'.map Frame.callSite = l.map Frame.callSite := by
  induction h with
  | nil => rfl
  | cons hframe _ ih => rw [List.map_cons, List.map_cons, hframe.callSite, ih]

theorem sites_calm (work : Work W α) [Calm work] (m : Machine W) : (leftBy (work m)).sites = m.sites :=
  congrArg (fun frames : Array Frame => frames.toList.map Frame.callSite) (Calm.frames m)

/-- Work that calls no function outside of the code. -/
class StaysInside (work : Work W Flow) : Prop where
  ne_host : ∀ (m n : Machine W) (callee receiver : Value) (args : List Value) (slot pos : Nat),
    work m ≠ .ok (.host callee receiver args slot pos) n

instance staysInside_goOn (pos : Nat) : StaysInside (pure (.goOn pos) : Work W Flow) :=
  ⟨fun _ _ _ _ _ _ _ h => by cases h⟩

instance staysInside_jump (offset : Nat) : StaysInside (pure (.jump offset) : Work W Flow) :=
  ⟨fun _ _ _ _ _ _ _ h => by cases h⟩

instance staysInside_finish (v : Value) : StaysInside (pure (.finish v) : Work W Flow) :=
  ⟨fun _ _ _ _ _ _ _ h => by cases h⟩

instance staysInside_bind (work : Work W α) (next : α → Work W Flow) [∀ a, StaysInside (next a)] :
    StaysInside (work >>= next) := by
  refine ⟨fun m n callee receiver args slot pos h => ?_⟩
  rw [bind_eq] at h
  cases hwork : work m with
  | ok a l =>
    rw [hwork] at h
    exact StaysInside.ne_host l n callee receiver args slot pos h
  | error e l =>
    rw [hwork] at h
    cases h

instance staysInside_ite (c : Prop) [Decidable c] (work work' : Work W Flow) [StaysInside work] [StaysInside work'] :
    StaysInside (if c then work else work') := by
  split <;> infer_instance

theorem staysInside_carryOut (env : Embedding W) (c : Cursor) {i : Code.Instr} (hi : i.isCall = false)
    (firstEnd next : Nat) : StaysInside (carryOut env c i firstEnd next) := by
  cases i with
  | call => cases hi
  | «return» => cases hi
  | _ =>
    simp only [carryOut, jumpIf, jumpKeeping, breakLoop, continueLoop]
    infer_instance

theorem sites_pushFrame (m : Machine W) (site : Option Nat) (slot : Nat) (receiver : Value) :
    (m.pushFrame site slot receiver).sites = m.sites ++ [site] := by
  simp [sites, pushFrame]

/-- What a call makes of the places that calls go back to. -/
def AddsSite (site : Nat) (m : Machine W) : EStateM.Result Error (Machine W) Flow → Prop
  | .ok _ n => n.sites = m.sites ++ [some site]
  | .error _ n => n.sites = m.sites

theorem addsSite_bind {work : Work W α} [Calm work] {next : α → Work W Flow} {site : Nat}
    (hnext : ∀ a n, AddsSite site n (next a n)) (m : Machine W) : AddsSite site m ((work >>= next) m) := by
  have hsites := sites_calm work m
  rw [bind_eq]
  generalize work m = r at hsites ⊢
  cases r with
  | error e n => exact hsites
  | ok a n =>
    have hcall := hnext a n
    unfold AddsSite at hcall ⊢
    rwa [show n.sites = m.sites from hsites] at hcall

theorem addsSite_enterCallee (call : PendingCall) (site pos : Nat) (callee : Value) (m : Machine W) :
    AddsSite site m (enterCallee call site pos callee m) := by
  cases callee with
  | function start | native id | signature id => exact sites_pushFrame m _ _ call.receiver
  | _ => exact rfl

theorem addsSite_callPending (site pos : Nat) (m : Machine W) : AddsSite site m (callPending site pos m) := by
  rw [callPending_eq_bind]
  exact addsSite_bind (fun call n => addsSite_bind (fun callee n => addsSite_enterCallee call site pos callee n) n) m

/-- What an instruction makes of the places that calls go back to. A call of a function outside of the code
leaves its own on top. -/
def KeepsSites (base : List (Option Nat)) : EStateM.Result Error (Machine W) Flow → Prop
  | .ok (.goOn _) n | .ok (.jump _) n => InExecution base n.sites
  | .ok (.host _ _ _ _ _) n => ∃ before site, InExecution base before ∧ n.sites = before ++ [some site]
  | .ok (.finish _) n | .error _ n => base <+: n.sites

theorem keepsSites_callPending (site pos : Nat) (h : InExecution base m.sites) :
    KeepsSites base (callPending site pos m) := by
  have hadds := addsSite_callPending site pos m
  generalize callPending site pos m = r at hadds ⊢
  cases r with
  | error e n =>
    rw [KeepsSites, show n.sites = m.sites from hadds]
    exact h.base_isPrefix
  | ok flow n =>
    replace hadds : n.sites = m.sites ++ [some site] := hadds
    cases flow with
    | goOn pos =>
      rw [KeepsSites, hadds]
      exact h.call site
    | jump offset =>
      rw [KeepsSites, hadds]
      exact h.call site
    | finish v =>
      rw [KeepsSites, hadds]
      exact (h.call site).base_isPrefix
    | host callee receiver args slot pos => exact ⟨_, site, h, hadds⟩

theorem keepsSites_calm {work : Work W Flow} [Calm work] [StaysInside work] (h : InExecution base m.sites) :
    KeepsSites base (work m) := by
  have hsites := sites_calm work m
  have hinside : ∀ n callee receiver args slot pos, work m ≠ .ok (.host callee receiver args slot pos) n :=
    StaysInside.ne_host m
  generalize work m = r at hsites hinside ⊢
  cases r with
  | error e n =>
    rw [KeepsSites, show n.sites = m.sites from hsites]
    exact h.base_isPrefix
  | ok flow n =>
    replace hsites : n.sites = m.sites := hsites
    cases flow with
    | goOn pos =>
      rw [KeepsSites, hsites]
      exact h
    | jump offset =>
      rw [KeepsSites, hsites]
      exact h
    | finish v =>
      rw [KeepsSites, hsites]
      exact h.base_isPrefix
    | host callee receiver args slot pos => exact absurd rfl (hinside n callee receiver args slot pos)

/-- What goes back to no code ends the execution. -/
theorem goBack_of_none {frame : Frame} (h : frame.callSite = none) (m : Machine W) :
    (∃ v n, goBack frame m = .ok (.finish v) n) ∨ ∃ e n, goBack frame m = .error e n := by
  have hpop (l : Machine W) : (∃ v n, (do return Flow.finish (← pop) : Work W Flow) l = .ok (.finish v) n)
      ∨ ∃ e n, (do return Flow.finish (← pop) : Work W Flow) l = .error e n := by
    rw [bind_eq]
    cases pop l with
    | ok v n => exact .inl ⟨v, n, rfl⟩
    | error e n => exact .inr ⟨e, n, rfl⟩
  unfold goBack
  rw [h]
  exact hpop _

/-- A return takes the last call off, or ends the execution if that is its own. -/
theorem keepsSites_returnFromCall (h : InExecution base m.sites) : KeepsSites base (returnFromCall m) := by
  obtain ⟨calls, hcalls⟩ := h
  have hpop : ({ m with frames := m.frames.pop } : Machine W).sites = m.sites.dropLast := by
    simp [sites, List.map_dropLast]
  have hlast : m.sites.getLast? = m.frames.back?.map Frame.callSite := by
    simp [sites, List.getLast?_map, Array.getLast?_toList]
  rw [returnFromCall_eq_bind, bind_eq]
  unfold takeFrame
  cases hback : m.frames.back? with
  | none =>
    rw [hback, hcalls] at hlast
    simp at hlast
  | some frame =>
    rw [hback] at hlast
    have hcalm := sites_calm (goBack frame) { m with frames := m.frames.pop }
    show KeepsSites base (goBack frame { m with frames := m.frames.pop })
    generalize ({ m with frames := m.frames.pop } : Machine W) = n at hpop hcalm ⊢
    -- The call that is taken off is that of the execution itself if there is no other one.
    rcases List.eq_nil_or_concat calls with rfl | ⟨outer, site, rfl⟩
    · have hsite : frame.callSite = none := by
        rw [hcalls] at hlast
        simpa using hlast.symm
      have hbase : n.sites = base := by
        rw [hpop, hcalls]
        simp
      have hends := goBack_of_none hsite n
      rcases hends with ⟨v, l, hends⟩ | ⟨e, l, hends⟩
      all_goals
        rw [hends] at hcalm ⊢
        exact (hcalm.trans hbase) ▸ List.prefix_rfl
    · have hall : m.sites = (base ++ none :: outer.map some) ++ [some site] := by
        rw [hcalls]
        simp
      have hsite : frame.callSite = some site := by
        rw [hall] at hlast
        simpa only [List.getLast?_concat, Option.map_some, Option.some.injEq] using hlast.symm
      have hbase : n.sites = base ++ none :: outer.map some := by
        rw [hpop, hall, List.dropLast_concat]
      simp only [goBack, hsite, bind_eq] at hcalm ⊢
      exact ⟨outer, hbase⟩

theorem keepsSites_carryOut (env : Embedding W) (c : Cursor) (i : Code.Instr) (firstEnd next : Nat)
    (h : InExecution base m.sites) : KeepsSites base (carryOut env c i firstEnd next m) := by
  cases hi : i.isCall with
  | false =>
    have := calm_carryOut env c hi firstEnd next
    have := staysInside_carryOut env c hi firstEnd next
    exact keepsSites_calm h
  | true =>
    cases i with
    | call => exact keepsSites_callPending _ _ h
    | «return» => exact keepsSites_returnFromCall h
    | _ => cases hi

/-- What a step makes of the places that calls go back to. -/
def StepKeepsSites (base : List (Option Nat)) : EStateM.Result Error (Machine W) Step → Prop
  | .ok (.goOn _) n => InExecution base n.sites
  | .ok (.host _ _ _ _ _) n => ∃ before site, InExecution base before ∧ n.sites = before ++ [some site]
  | .ok (.finish _) n | .error _ n => base <+: n.sites

/-- A step keeps the calls that its execution was entered with. -/
theorem keepsSites_advance (env : Embedding W) (c : Cursor) (h : InExecution base m.sites) :
    StepKeepsSites base (advance env c m) := by
  cases hread : Code.Decoded.read c.code c.pos with
  | instr i firstEnd next =>
    have hkeeps := keepsSites_carryOut env c i firstEnd next h
    rw [advance_eq env hread, bind_eq]
    generalize carryOut env c i firstEnd next m = r at hkeeps ⊢
    cases r with
    | error e n => exact hkeeps
    | ok flow n =>
      cases flow with
      | goOn pos => exact hkeeps
      | finish v => exact hkeeps
      | host callee receiver args slot pos => exact hkeeps
      | jump offset =>
        simp only [settle, bind_eq, inspect]
        cases c.goTo n.program offset i.op with
        | ok c => exact hkeeps
        | error e => exact (show InExecution base n.sites from hkeeps).base_isPrefix
  | _ =>
    unfold advance
    rw [hread]
    exact h.base_isPrefix

end Machine

end ScriptEngine
