import ScriptEngine.Proofs.Machine.Cursors
import ScriptEngine.Proofs.Machine.Functions
import ScriptEngine.Proofs.Machine.Skeleton
/-!
The stack discipline of a run.

A run is inside calls that were entered from one another (`Chain`), and at its cursor the stacks have, on top
of what the innermost call was entered with, the level that the code has there (`Running`). A step keeps
that up, whatever it does, and touches nothing below what the run started with (`Running.advance`): a call
enters a new call, a return goes back to the one before, and everything else stays in the call.
-/

namespace ScriptEngine

open Code (Chart Charts Level Levels Item Instr Program Decoded Op)

/-! ## Calls in calls -/

/-- The loops of a level go on at items. -/
def Code.Level.Inside (n : Nat) (L : Level) : Prop :=
  ∀ r ∈ L.loops, r.exit < n ∧ r.again < n

/-- A call was entered that leads, when it returns, to the stacks in `after`, whose top is its result. -/
def Skeleton.Entered (E after : Skeleton) (site : Option Nat) : Prop :=
  ∃ slot, after.values = slot + 1 ∧ slot < E.values
    ∧ E.returns = ⟨site, after.scopes, after.loops.length, slot⟩ :: after.returns
    ∧ E.pending = after.pending ∧ E.scopes = after.scopes ∧ E.loops = after.loops

theorem Skeleton.Entered.sizes {E after : Skeleton} {site : Option Nat} (h : E.Entered after site) :
    after.values ≤ E.values ∧ E.returns.length = after.returns.length + 1 ∧ E.pending = after.pending
      ∧ E.scopes = after.scopes ∧ E.loops = after.loops := by
  obtain ⟨slot, hvalues, hlt, hreturns, hrest⟩ := h
  refine ⟨by omega, ?_, hrest⟩
  rw [hreturns]
  rfl

/-- Calls that were entered from one another, the innermost first, since an execution started with some
stacks. Each but the outermost was entered from an item in front of the one where its caller goes on. -/
inductive Chain (T : Charts) (P : Program) (start : Skeleton) : Skeleton → List Skeleton → Prop
  | outermost {E : Skeleton} (h : E.Entered { start with values := start.values + 1 } none) :
    Chain T P start E []
  | inner {E E' : Skeleton} {outer : List Skeleton} {base i site : Nat} {unit : Array UInt8}
    (h : E.Entered (E'.plus (T unit) base ((T unit).levels i)) (some site)) (hhas : P.Has base unit)
    (hi : i < (T unit).items.length) (hsite : site + 1 = base + (T unit).place i)
    (hheight : 1 ≤ ((T unit).levels i).height) (hinside : ((T unit).levels i).Inside (T unit).items.length)
    (hrest : Chain T P start E' outer) : Chain T P start E (E' :: outer)

namespace Chain

variable {T : Charts} {P : Program} {start E : Skeleton} {outer : List Skeleton}

/-- A call has everything that the execution started with, and more values and calls. -/
theorem floor (h : Chain T P start E outer) :
    start.depths.Le E.depths ∧ start.values < E.values ∧ start.returns.length < E.returns.length := by
  induction h with
  | @outermost E h =>
    obtain ⟨hvalues, hreturns, hpending, hscopes, hloops⟩ := h.sizes
    have hmore : start.values < E.values := hvalues
    have hcalls : start.returns.length < E.returns.length := by
      rw [hreturns]
      exact Nat.lt_succ_self _
    refine ⟨⟨Nat.le_of_lt hmore, Nat.le_of_lt hcalls, ?_, Nat.le_of_eq hscopes.symm, ?_⟩, hmore, hcalls⟩
    · exact Nat.le_of_eq (congrArg List.length hpending.symm)
    · exact Nat.le_of_eq (congrArg List.length hloops.symm)
  | @inner E E' outer base i site unit h _ _ _ hheight _ _ ih =>
    obtain ⟨hvalues, hreturns, hpending, hscopes, hloops⟩ := h.sizes
    obtain ⟨⟨_, _, hargs, hdepth, hround⟩, hmore, hcalls⟩ := ih
    have hmore' : start.values < E.values :=
      Nat.lt_of_lt_of_le hmore (Nat.le_trans (Nat.le_add_right _ _) hvalues)
    have hcalls' : start.returns.length < E.returns.length := by
      rw [hreturns]
      exact Nat.lt_succ_of_lt hcalls
    refine ⟨⟨Nat.le_of_lt hmore', Nat.le_of_lt hcalls', ?_, ?_, ?_⟩, hmore', hcalls'⟩
    · refine Nat.le_trans hargs ?_
      simp [Skeleton.plus, Skeleton.depths, hpending]
    · refine Nat.le_trans hdepth ?_
      simp [Skeleton.plus, Skeleton.depths, hscopes]
    · refine Nat.le_trans hround ?_
      simp [Skeleton.plus, Skeleton.depths, hloops]

/-- What the innermost call returns to. -/
theorem entered (h : Chain T P start E outer) :
    ∃ after site, E.Entered after site ∧ start.values < after.values := by
  cases h with
  | outermost h => exact ⟨_, _, h, Nat.lt_succ_self _⟩
  | @inner _ E' _ base i site unit h _ _ _ hheight _ hrest =>
    refine ⟨_, _, h, ?_⟩
    have hfloor := hrest.floor.2.1
    show start.values < E'.values + ((T unit).levels i).height
    omega

end Chain

/-- Functions that are functions of the code start where these do. -/
theorem Code.Charts.Describe.entry_of_within {T : Charts} {P : Program} (hT : T.Describe P) {entry : Payload}
    (h : (Value.function entry).Within (T.Entry P)) : T.Entry P entry.val := by
  refine h.start ?_ ?_
  · exact fun h0 => absurd (hT.one_lt_entry h0) (by decide)
  · exact fun h1 => absurd (hT.one_lt_entry h1) (by decide)

namespace Machine

variable {W : Type} {T : Charts} {P : Program} {start E : Skeleton} {outer : List Skeleton} {L : Level}
  {m m' : Machine W} {c : Cursor}

/-- A run at a cursor: the calls that it is in, and the level of the innermost one. -/
structure Running (T : Charts) (P : Program) (start : Skeleton) (m : Machine W) (c : Cursor) (E : Skeleton)
    (outer : List Skeleton) (L : Level) : Prop where
  chain : Chain T P start E outer
  place : c.At T P L
  inside : L.Inside (T c.code).items.length
  skeleton : m.skeleton = E.plus (T c.code) c.base L

/-- The depths that the calls of a run were entered with, after a step: that of a new call in front, or
without that of a call that returned. -/
def entriesAfter (m m' : Machine W) (entries : List Depths) : List Depths :=
  if m.frames.size < m'.frames.size then m'.depths :: entries
  else if m'.frames.size < m.frames.size then entries.tail
  else entries

/-- Below some depths nothing happened, and the stack has at least some number of values. -/
structure Confined (d : Depths) (least : Nat) (m m' : Machine W) : Prop extends Untouched d m m' where
  least : least ≤ m'.stack.size

/-- What comes of a step of a run that leaves some number of values at least. -/
def Comes (T : Charts) (P : Program) (start : Skeleton) (m : Machine W) (E : Skeleton) (outer : List Skeleton)
    (least : Nat) : EStateM.Result Error (Machine W) Step → Prop
  | .error _ m' => Confined start.depths least m m'
  | .ok (.finish _) m' => Confined start.depths least m m'
  | .ok (.goOn c') m' =>
    Confined start.depths least m m' ∧ ∃ E' outer' L', Running T P start m' c' E' outer' L'
      ∧ (E' :: outer').map Skeleton.depths = entriesAfter m m' ((E :: outer).map Skeleton.depths)
  | .ok (.host _ _ _ slot c') m' =>
    Confined start.depths least m m' ∧ m.frames.size < m'.frames.size
      ∧ ∀ n : Machine W, n.skeleton = m'.skeleton → Untouched start.depths n n.leaveHost
        ∧ ∀ v, Untouched start.depths n (n.leaveHost.putResult slot v)
          ∧ ∃ L', Running T P start (n.leaveHost.putResult slot v) c' E outer L'

theorem confined_of_comes {least : Nat} {r : EStateM.Result Error (Machine W) Step}
    (h : Comes T P start m E outer least r) : Confined start.depths least m (leftBy r) := by
  cases r with
  | error e m' => exact h
  | ok step m' =>
    cases step with
    | goOn c' => exact h.1
    | finish v => exact h
    | host callee receiver args slot c' => exact h.1

theorem size_frames (m : Machine W) : m.frames.size = m.skeleton.returns.length := by
  simp [skeleton]

theorem size_scopes (m : Machine W) : m.scopes.size = m.skeleton.scopes := rfl

theorem size_stack (m : Machine W) : m.stack.size = m.skeleton.values := rfl

theorem entriesAfter_same (h : m'.frames.size = m.frames.size) (entries : List Depths) :
    entriesAfter m m' entries = entries := by
  unfold entriesAfter
  rw [if_neg (by omega), if_neg (by omega)]

namespace Running

/-- The stacks of a run have everything that its execution started with. -/
theorem room (h : Running T P start m c E outer L) : start.depths.Le m.depths := by
  rw [← depths_skeleton, h.skeleton]
  refine h.chain.floor.1.trans ⟨Nat.le_add_right _ _, Nat.le_refl _, ?_, Nat.le_add_right _ _, ?_⟩
  · simp [Skeleton.depths, Skeleton.plus]
  · simp [Skeleton.depths, Skeleton.plus]

theorem size_stack (h : Running T P start m c E outer L) : m.stack.size = E.values + L.height :=
  congrArg Skeleton.values h.skeleton

theorem size_scopes (h : Running T P start m c E outer L) : m.scopes.size = E.scopes + L.scopes :=
  congrArg Skeleton.scopes h.skeleton

theorem size_frames (h : Running T P start m c E outer L) : m.frames.size = E.returns.length := by
  rw [Machine.size_frames, h.skeleton]
  rfl

/-- The stack has all values that the innermost call was entered with. -/
theorem values_le (h : Running T P start m c E outer L) : E.values ≤ m.stack.size := by
  rw [h.size_stack]
  exact Nat.le_add_right _ _

theorem confined (h : Running T P start m c E outer L) : Confined start.depths E.values m m :=
  ⟨.refl h.room, h.values_le⟩

/-- The frame of the innermost call. -/
theorem frame (h : Running T P start m c E outer L) :
    ∃ frame, m.frames.back? = some frame ∧ start.values ≤ frame.resultSlot
      ∧ frame.loops = E.loops.length := by
  obtain ⟨after, site, ⟨slot, hvalues, hlt, hreturns, -, -, hloops⟩, hfloor⟩ := h.chain.entered
  have hskeleton := congrArg Skeleton.returns h.skeleton
  have hlist : m.frames.toList.reverse.map Frame.bare
      = ⟨site, after.scopes, after.loops.length, slot⟩ :: after.returns := hskeleton.trans hreturns
  obtain ⟨frame, rest, hframes, hbare, -⟩ := List.map_eq_cons_iff.mp hlist
  have hback : m.frames.back? = some frame := by
    rw [← Array.getLast?_toList, List.getLast?_eq_head?_reverse, hframes]
    rfl
  refine ⟨frame, hback, ?_, ?_⟩
  · have hslot : frame.resultSlot = slot := congrArg Return.slot hbare
    omega
  · rw [hloops]
    exact congrArg Return.loops hbare

/-- Goes on at an item of the same unit and in the same call. -/
theorem next (h : Running T P start m c E outer L) {least : Nat} (hm : Confined start.depths least m m') {i : Nat}
    (hi : i < (T c.code).items.length)
    (hinside : ((T c.code).levels i).Inside (T c.code).items.length)
    (hskeleton : m'.skeleton = E.plus (T c.code) c.base ((T c.code).levels i)) (op : Op) :
    Comes T P start m E outer least
      (.ok (.goOn { c with pos := (T c.code).place i, previous := op }) m') := by
  refine ⟨hm, E, outer, _, ⟨h.chain, ⟨h.place.has, h.place.first, .inr ⟨i, hi, rfl, rfl⟩⟩, hinside, hskeleton⟩, ?_⟩
  rw [entriesAfter_same]
  rw [h.size_frames, Machine.size_frames, hskeleton]
  rfl

end Running

/-! ## Calls -/

/-- The machine with the frame of a call in place of the pending call. -/
def framed (m : Machine W) (site : Nat) (call : PendingCall) : Machine W :=
  ({ m with pending := m.pending.pop } : Machine W).pushFrame (some site) call.calleeSlot call.receiver

theorem skeleton_framed (m : Machine W) (site : Nat) (call : PendingCall) :
    (framed m site call).skeleton = { m.skeleton with
      returns := ⟨some site, m.scopes.size, m.loops.size, call.calleeSlot⟩ :: m.skeleton.returns
      pending := m.skeleton.pending.tail } := by
  simp [framed, pushFrame, Machine.skeleton, Frame.bare]

/-- After a function outside of the code, the frame of its call is taken off, and the result put in place of
the callee and what is above it. -/
theorem skeleton_leaveHost (n : Machine W) :
    n.leaveHost.skeleton = { n.skeleton with returns := n.skeleton.returns.tail } := by
  unfold leaveHost
  cases hback : n.frames.back? with
  | some frame => simp [Machine.skeleton]
  | none =>
    have hempty : n.frames = #[] := Array.back?_eq_none_iff.mp hback
    simp [Machine.skeleton, hempty]

theorem skeleton_putResult (n : Machine W) (slot : Nat) (v : Value) :
    (n.putResult slot v).skeleton = { n.skeleton with values := min (slot + 1) n.stack.size } := by
  simp [putResult, Machine.skeleton]

theorem untouched_leaveHost {d : Depths} {n : Machine W} (hd : d.Le n.depths) (hcalls : d.calls < n.frames.size) :
    Untouched d n n.leaveHost := by
  unfold leaveHost
  split
  · refine ⟨⟨hd.data, ?_, hd.args, hd.scopes, hd.loops⟩, rfl, take_pop_of_lt _ hcalls, rfl, rfl, rfl⟩
    show d.calls ≤ n.frames.pop.size
    rw [Array.size_pop]
    omega
  · exact .refl hd

theorem untouched_putResult {d : Depths} {n : Machine W} (hd : d.Le n.depths) {slot : Nat} (hslot : d.data ≤ slot)
    (v : Value) : Untouched d n (n.putResult slot v) := by
  refine ⟨⟨?_, hd.calls, hd.args, hd.scopes, hd.loops⟩, ?_, rfl, rfl, rfl, rfl⟩
  · show d.data ≤ ((n.stack.shrink (slot + 1)).setIfInBounds slot v).size
    have hdata : d.data ≤ n.stack.size := hd.data
    rw [Array.size_setIfInBounds, Array.size_shrink]
    omega
  · show ((n.stack.shrink (slot + 1)).setIfInBounds slot v).take d.data = n.stack.take d.data
    rw [take_set_of_le _ v hslot, take_shrink_of_le _ (Nat.le_succ_of_le hslot)]

/-- What a pending call found is called, or is no function. -/
theorem callPending_eq {call : PendingCall} (hback : m.pending.back? = some call) {v : Value}
    (hv : m.stack[call.calleeSlot]? = some v) (site pos : Nat) :
    (∃ entry, v = .function entry ∧ callPending site pos m = .ok (.jump entry.val)
        { framed m site call with stack := m.stack.setIfInBounds call.calleeSlot .undefined })
      ∨ (∃ args, callPending site pos m = .ok (.host v call.receiver args call.calleeSlot pos) (framed m site call))
      ∨ ∃ e, callPending site pos m = .error e { m with pending := m.pending.pop } := by
  have htake : takePending m = .ok call { m with pending := m.pending.pop } := by
    simp only [takePending, hback]
  unfold callPending
  simp only [bind_eq, htake, inspect, hv]
  cases v with
  | function entry => exact .inl ⟨entry, rfl, rfl⟩
  | native id | signature id => exact .inr (.inl ⟨_, rfl⟩)
  | _ => exact .inr (.inr ⟨_, rfl⟩)

/-- The machine after a call of code went back. -/
def unframed (m : Machine W) (frame : Frame) : Machine W :=
  { m with
    frames := m.frames.pop
    receiver := frame.receiver
    scopes := m.scopes.shrink frame.scopes
    loops := m.loops.shrink frame.loops
    stack := m.stack.shrink (frame.resultSlot + 1) }

theorem returnFromCall_eq {frame : Frame} (hback : m.frames.back? = some frame) :
    returnFromCall m = match frame.callSite with
      | some site => .ok (.jump (site + 1)) (unframed m frame)
      | none => (pop >>= fun v => pure (.finish v)) (unframed m frame) := by
  unfold returnFromCall
  show EStateM.bind _ _ m = _
  simp only [EStateM.bind, hback]
  show (match frame.callSite with
    | some site => (pure (.jump (site + 1)) : Work W Flow)
    | none => pop >>= fun v => pure (.finish v)) (unframed m frame) = _
  cases frame.callSite with
  | some site => rfl
  | none => rfl

theorem skeleton_unframed (m : Machine W) (frame : Frame) :
    (unframed m frame).skeleton = {
      values := min (frame.resultSlot + 1) m.stack.size
      returns := m.skeleton.returns.tail
      pending := m.skeleton.pending
      scopes := min frame.scopes m.scopes.size
      loops := m.skeleton.loops.drop (m.loops.size - frame.loops) } := by
  simp [unframed, Machine.skeleton, List.reverse_take]

/-! ## Items -/

section Items

variable {i firstEnd next least : Nat} {env : Embedding W}

/-- A run at an item. -/
structure RunningAt (T : Charts) (P : Program) (start : Skeleton) (m : Machine W) (c : Cursor) (E : Skeleton)
    (outer : List Skeleton) (i : Nat) : Prop extends
    Running T P start m c E outer ((T c.code).levels i) where
  charts : T.Describe P
  program : m.program.PartOf P
  index : i < (T c.code).items.length
  pos : c.pos = (T c.code).place i

theorem comes_of_error {ins : Instr} (hread : Decoded.read c.code c.pos = .instr ins firstEnd next) {e : Error}
    (hcarry : carryOut env c ins firstEnd next m = .error e m') (hm : Confined start.depths least m m') :
    Comes T P start m E outer least (advance env c m) := by
  rw [advance_eq env hread, bind_eq, hcarry]
  exact hm

theorem comes_of_finish {ins : Instr} (hread : Decoded.read c.code c.pos = .instr ins firstEnd next) {v : Value}
    (hcarry : carryOut env c ins firstEnd next m = .ok (.finish v) m') (hm : Confined start.depths least m m') :
    Comes T P start m E outer least (advance env c m) := by
  rw [advance_eq env hread, bind_eq, hcarry]
  exact hm

namespace RunningAt

theorem of (h : RunningAt T P start m c E outer i) : (T c.code).Of c.code :=
  h.charts.of_has h.place.has

theorem agrees (h : RunningAt T P start m c E outer i) {item : Item} (hitem : (T c.code).items[i]? = some item) :
    item.Agrees (T c.code).levels i :=
  h.of.levels.agrees hitem

/-- An item is read at the cursor. -/
theorem read (h : RunningAt T P start m c E outer i) {item : Item} (hitem : (T c.code).items[i]? = some item) :
    item.ReadAs (T c.code).place i (Decoded.read c.code c.pos) := by
  rw [h.pos]
  exact h.of.stands.read hitem

/-- Which item was read, by its instruction. -/
theorem item_of_read (h : RunningAt T P start m c E outer i) {ins : Instr}
    (hread : Decoded.read c.code c.pos = .instr ins firstEnd next) :
    (∃ complete, (T c.code).items[i]? = some (.plain ins complete))
      ∨ (∃ j ahead distance, (T c.code).items[i]? = some (.jump j ahead) ∧ ins = j.instr distance)
      ∨ (∃ exit again b d, (T c.code).items[i]? = some (.loop exit again) ∧ ins = .loop b d)
      ∨ ∃ behind back, (T c.code).items[i]? = some (.func behind) ∧ ins = .pushFunc back
        ∧ (T c.code).place (i - behind) + back = (T c.code).place i := by
  obtain ⟨item, hitem⟩ : ∃ item, (T c.code).items[i]? = some item := ⟨_, List.getElem?_eq_getElem h.index⟩
  have hitemRead := h.read hitem
  rw [hread] at hitemRead
  cases item with
  | plain ins' complete =>
    obtain ⟨_, hins⟩ := hitemRead
    cases hins
    exact .inl ⟨complete, hitem⟩
  | jump j ahead =>
    obtain ⟨distance, hins, -⟩ := hitemRead
    cases hins
    exact .inr (.inl ⟨j, ahead, distance, hitem, rfl⟩)
  | loop exit again =>
    obtain ⟨b, d, _, hins, -⟩ := hitemRead
    cases hins
    exact .inr (.inr (.inl ⟨exit, again, b, d, hitem, rfl⟩))
  | func behind =>
    obtain ⟨back, _, hins, hback⟩ := hitemRead
    cases hins
    exact .inr (.inr (.inr ⟨behind, back, hitem, rfl, hback⟩))

/-- A plain instruction agrees with the levels. -/
theorem agrees_of_read (h : RunningAt T P start m c E outer i) {ins : Instr}
    (hread : Decoded.read c.code c.pos = .instr ins firstEnd next) (hplain : ins.isPlain = true) :
    ins.Agrees (T c.code).levels ((T c.code).levels i) ((T c.code).levels (i + 1)) := by
  rcases h.item_of_read hread with ⟨complete, hitem⟩ | ⟨j, _, _, -, rfl⟩ | ⟨_, _, _, _, -, rfl⟩ | ⟨_, _, -, rfl, -⟩
  · exact h.agrees hitem
  · cases j <;> cases hplain
  · cases hplain
  · cases hplain

/-- At an instruction there is as much above what the innermost call was entered with as it takes. -/
theorem takes_le (h : RunningAt T P start m c E outer i) {ins : Instr}
    (hread : Decoded.read c.code c.pos = .instr ins firstEnd next) : ins.takes ≤ ((T c.code).levels i).height := by
  rcases h.item_of_read hread with ⟨complete, hitem⟩ | ⟨j, ahead, distance, hitem, rfl⟩ | ⟨_, _, b, d, -, rfl⟩
    | ⟨_, back, -, rfl, -⟩
  · exact (show ins.Agrees _ _ _ from h.agrees hitem).takes_le
  · have hagrees := h.agrees hitem
    cases j with
    | always => exact Nat.zero_le _
    | onFalse | onTrueKept | onFalseKept => exact hagrees.1
  · exact Nat.zero_le _
  · exact Nat.zero_le _

/-- Behind an item that goes on is another one. -/
theorem next_lt (_ : RunningAt T P start m c E outer i) {item : Item} (hitem : (T c.code).items[i]? = some item)
    (hne : item.op ≠ .exit) : i + 1 < (T c.code).items.length :=
  (T c.code).closed.next_lt hitem hne

/-- An instruction that goes on at an item, with as many calls as before. -/
theorem goOn (h : RunningAt T P start m c E outer i) {ins : Instr}
    (hread : Decoded.read c.code c.pos = .instr ins firstEnd next)
    {j : Nat} (hj : j < (T c.code).items.length)
    (hcarry : carryOut env c ins firstEnd next m = .ok (.goOn ((T c.code).place j)) m')
    (hm : Confined start.depths least m m') (hloops : ((T c.code).levels j).Inside (T c.code).items.length)
    (hskeleton : m'.skeleton = E.plus (T c.code) c.base ((T c.code).levels j)) :
    Comes T P start m E outer least (advance env c m) := by
  rw [advance_eq env hread, bind_eq, hcarry]
  exact h.next hm hj hloops hskeleton ins.op

/-- What takes values of the innermost call only. -/
theorem trade (h : RunningAt T P start m c E outer i) {k : Nat}
    (hk : k ≤ ((T c.code).levels i).height) :
    m.stack.size = (E.values + (((T c.code).levels i).height - k)) + k := by
  rw [h.size_stack]
  omega

theorem confined_of_above (h : RunningAt T P start m c E outer i) {k : Nat}
    (habove : Above (E.values + k) m m') : Confined start.depths E.values m m' := by
  refine ⟨habove.untouched h.room ?_, Nat.le_trans (Nat.le_add_right _ _) habove.room⟩
  have hfloor := h.chain.floor.2.1
  show start.values ≤ E.values + k
  omega

/-- What is at an item, on top of what the call was entered with, after a trade. -/
theorem skeleton_of_above (h : RunningAt T P start m c E outer i) {k l : Nat} {L' : Level}
    (habove : Above (E.values + k) m m') (hsize : m'.stack.size = E.values + k + l)
    (hL : L' = { (T c.code).levels i with height := k + l }) : m'.skeleton = E.plus (T c.code) c.base L' := by
  rw [Machine.skeleton_of_above habove, h.skeleton, hL, hsize]
  simp only [Skeleton.plus, Nat.add_assoc]

theorem flat (h : RunningAt T P start m c E outer i) {ins : Instr} {complete : ins.isPlain = true}
    (hitem : (T c.code).items[i]? = some (.plain ins complete)) (hflat : ins.isFlat = true)
    (hresult : ins ≠ .setRetVal) : Comes T P start m E outer E.values (advance env c m) := by
  obtain ⟨firstEnd, hread⟩ := h.read hitem
  obtain ⟨htakes, hnext⟩ := (Instr.agrees_of_isFlat hflat _ _ _).mp (h.agrees hitem)
  have hlt := h.next_lt hitem fun hop => by cases ins <;> cases hop; cases hflat
  obtain ⟨habove, hok⟩ := trades_carryOut env c hflat hresult firstEnd ((T c.code).place (i + 1)) m _ (h.trade htakes)
  cases hwork : carryOut env c ins firstEnd ((T c.code).place (i + 1)) m with
  | error e m' =>
    rw [hwork] at habove
    exact comes_of_error hread hwork (h.confined_of_above habove)
  | ok flow m' =>
    rw [hwork] at habove
    obtain ⟨l, ⟨rfl, rfl⟩, hleft⟩ := hok flow m' hwork
    refine h.goOn hread hlt hwork (h.confined_of_above habove) ?_ (h.skeleton_of_above habove hleft hnext)
    rw [hnext]
    exact h.inside

/-- The slot of the result is that of the callee, below the values of the call. -/
theorem setRetVal (h : RunningAt T P start m c E outer i)
    (hitem : (T c.code).items[i]? = some (.plain .setRetVal)) :
    Comes T P start m E outer E.values (advance env c m) := by
  obtain ⟨firstEnd, hread⟩ := h.read hitem
  have hagrees : 1 ≤ ((T c.code).levels i).height ∧ (T c.code).levels (i + 1)
      = { (T c.code).levels i with height := ((T c.code).levels i).height - 1 + 0 } := h.agrees hitem
  obtain ⟨htakes, hnext⟩ := hagrees
  have hlt := h.next_lt hitem (by decide)
  obtain ⟨habove, hok⟩ := trades_pop (W := W) (k := 0) m _ (h.trade htakes)
  obtain ⟨frame, hback, hslot, -⟩ := h.frame
  have hcarry : carryOut env c .setRetVal firstEnd ((T c.code).place (i + 1)) m
      = (pop >>= fun v => setResult v >>= fun _ => pure (Flow.goOn ((T c.code).place (i + 1)))) m := rfl
  rw [bind_eq] at hcarry
  cases hpop : pop m with
  | error e m₁ =>
    rw [hpop] at hcarry habove
    exact comes_of_error hread hcarry (h.confined_of_above habove)
  | ok v m₁ =>
    rw [hpop] at hcarry habove
    obtain ⟨l, rfl, hleft⟩ := hok v m₁ hpop
    have hkept : Above _ m m₁ := habove
    have hsame : Confined start.depths E.values m m₁ := h.confined_of_above habove
    have hback' : m₁.topFrame? = some frame := by rw [topFrame?, hkept.frames, hback]
    have hresult : setResult v m₁ = if frame.resultSlot < m₁.stack.size then
        .ok () { m₁ with stack := m₁.stack.setIfInBounds frame.resultSlot v } else .error cannotReturn m₁ := by
      simp only [setResult, hback']
    simp only [bind_eq, hresult] at hcarry
    by_cases hroom : frame.resultSlot < m₁.stack.size
    · rw [if_pos hroom] at hcarry
      have hset : Above start.values m₁ { m₁ with stack := m₁.stack.setIfInBounds frame.resultSlot v } := by
        refine above_of_same_take ?_ (take_set_of_le _ v hslot)
        rw [Array.size_setIfInBounds]
        exact hsame.room.data
      refine h.goOn hread hlt hcarry ⟨hsame.toUntouched.trans (hset.untouched hsame.room (Nat.le_refl _)), ?_⟩ ?_ ?_
      · show E.values ≤ (m₁.stack.setIfInBounds frame.resultSlot v).size
        rw [Array.size_setIfInBounds]
        exact hsame.least
      · rw [hnext]
        exact h.inside
      · rw [← h.skeleton_of_above hkept hleft hnext]
        simp [Machine.skeleton]
    · rw [if_neg hroom] at hcarry
      exact comes_of_error hread hcarry hsame

/-- Leaving the code. -/
theorem exit (h : RunningAt T P start m c E outer i)
    (hitem : (T c.code).items[i]? = some (.plain .exit)) :
    Comes T P start m E outer E.values (advance env c m) := by
  obtain ⟨firstEnd, hread⟩ := h.read hitem
  have htakes : 1 ≤ ((T c.code).levels i).height := h.agrees hitem
  obtain ⟨habove, hok⟩ := trades_pop (W := W) (k := 0) m _ (h.trade htakes)
  have hcarry : carryOut env c .exit firstEnd ((T c.code).place (i + 1)) m
      = (pop >>= fun v => pure (Flow.finish v)) m := rfl
  rw [bind_eq] at hcarry
  cases hpop : pop m with
  | error e m₁ =>
    rw [hpop] at hcarry habove
    exact comes_of_error hread hcarry (h.confined_of_above habove)
  | ok v m₁ =>
    rw [hpop] at hcarry habove
    exact comes_of_finish hread hcarry (h.confined_of_above habove)

/-! ### Scopes and arguments -/

theorem newScope (h : RunningAt T P start m c E outer i)
    (hitem : (T c.code).items[i]? = some (.plain .newScope)) :
    Comes T P start m E outer E.values (advance env c m) := by
  obtain ⟨firstEnd, hread⟩ := h.read hitem
  have hnext : (T c.code).levels (i + 1)
      = { (T c.code).levels i with scopes := ((T c.code).levels i).scopes + 1 } := h.agrees hitem
  have hlt := h.next_lt hitem (by decide)
  obtain ⟨heap, scope, hnew⟩ : ∃ heap scope, m.heap.newObject = (heap, scope) := ⟨_, _, rfl⟩
  have hcarry : carryOut env c .newScope firstEnd ((T c.code).place (i + 1)) m
      = .ok (.goOn ((T c.code).place (i + 1))) { m with heap := heap, scopes := m.scopes.push scope } := by
    show (openScope >>= fun _ => pure (Flow.goOn ((T c.code).place (i + 1)))) m = _
    simp only [openScope, bind_eq, alloc, hnew]
    rfl
  have hd := h.room
  refine h.goOn hread hlt hcarry ⟨⟨⟨hd.data, hd.calls, hd.args, ?_, hd.loops⟩, rfl, rfl, rfl,
    take_push_of_le _ _ hd.scopes, rfl⟩, h.values_le⟩ ?_ ?_
  · show start.scopes ≤ (m.scopes.push scope).size
    rw [Array.size_push]
    exact Nat.le_succ_of_le hd.scopes
  · rw [hnext]
    exact h.inside
  · have hskeleton : ({ m with heap := heap, scopes := m.scopes.push scope } : Machine W).skeleton
        = { m.skeleton with scopes := m.scopes.size + 1 } := by
      simp only [Machine.skeleton, Array.size_push]
    rw [hskeleton, hnext, h.skeleton, h.size_scopes]
    rfl

theorem delScope (h : RunningAt T P start m c E outer i)
    (hitem : (T c.code).items[i]? = some (.plain .delScope)) :
    Comes T P start m E outer E.values (advance env c m) := by
  obtain ⟨firstEnd, hread⟩ := h.read hitem
  have hagrees : 1 ≤ ((T c.code).levels i).scopes ∧ (T c.code).levels (i + 1)
      = { (T c.code).levels i with scopes := ((T c.code).levels i).scopes - 1 } := h.agrees hitem
  obtain ⟨hscopes, hnext⟩ := hagrees
  have hlt := h.next_lt hitem (by decide)
  have hcarry : carryOut env c .delScope firstEnd ((T c.code).place (i + 1)) m
      = (closeScope >>= fun _ => pure (Flow.goOn ((T c.code).place (i + 1)))) m := rfl
  have hd := h.room
  rw [bind_eq] at hcarry
  by_cases hfew : m.scopes.size ≤ 1
  · have hclose : (closeScope m : EStateM.Result Error (Machine W) Unit) = .error scopesUnderflow m := if_pos hfew
    rw [hclose] at hcarry
    exact comes_of_error hread hcarry h.confined
  · have hclose : (closeScope m : EStateM.Result Error (Machine W) Unit)
        = .ok () { m with scopes := m.scopes.pop } := if_neg hfew
    rw [hclose] at hcarry
    have hsize := h.size_scopes
    have hfloor : start.scopes ≤ E.scopes := h.chain.floor.1.scopes
    refine h.goOn hread hlt hcarry ⟨⟨⟨hd.data, hd.calls, hd.args, ?_, hd.loops⟩, rfl, rfl, rfl, ?_, rfl⟩, h.values_le⟩
      ?_ ?_
    · show start.scopes ≤ m.scopes.pop.size
      rw [Array.size_pop]
      omega
    · refine take_pop_of_lt _ ?_
      show start.scopes < m.scopes.size
      omega
    · rw [hnext]
      exact h.inside
    · have hskeleton : ({ m with scopes := m.scopes.pop } : Machine W).skeleton
          = { m.skeleton with scopes := m.scopes.size - 1 } := by
        simp only [Machine.skeleton, Array.size_pop]
      rw [hskeleton, hnext, h.skeleton, hsize]
      simp only [Skeleton.plus, Nat.add_sub_assoc hscopes]

theorem args (h : RunningAt T P start m c E outer i)
    (hitem : (T c.code).items[i]? = some (.plain .args)) :
    Comes T P start m E outer E.values (advance env c m) := by
  obtain ⟨firstEnd, hread⟩ := h.read hitem
  have hagrees : 1 ≤ ((T c.code).levels i).height ∧ (T c.code).levels (i + 1)
      = { (T c.code).levels i with pending := (((T c.code).levels i).height - 1) :: ((T c.code).levels i).pending } :=
    h.agrees hitem
  obtain ⟨hheight, hnext⟩ := hagrees
  have hlt := h.next_lt hitem (by decide)
  have hsize := h.size_stack
  have hne : m.stack.isEmpty = false := decide_eq_false (by omega)
  obtain ⟨noted, m₁, hbegin, hm₁⟩ : ∃ noted m₁, beginArgs c.previous m = .ok () m₁
      ∧ m₁ = { m with pending := m.pending.push ⟨noted, m.stack.size - 1⟩, lastHolder := .undefined } := by
    unfold beginArgs
    rw [hne]
    exact ⟨_, _, rfl, rfl⟩
  have hcarry : carryOut env c .args firstEnd ((T c.code).place (i + 1)) m
      = .ok (.goOn ((T c.code).place (i + 1))) m₁ := by
    show (beginArgs c.previous >>= fun _ => pure (Flow.goOn ((T c.code).place (i + 1)))) m = _
    rw [bind_eq, hbegin]
    rfl
  have hd := h.room
  refine h.goOn hread hlt hcarry ?_ ?_ ?_
  · rw [hm₁]
    refine ⟨⟨⟨hd.data, hd.calls, ?_, hd.scopes, hd.loops⟩, rfl, rfl, take_push_of_le _ _ hd.args, rfl, rfl⟩, h.values_le⟩
    show start.pending.length ≤ (m.pending.push _).size
    rw [Array.size_push]
    exact Nat.le_succ_of_le hd.args
  · rw [hnext]
    exact h.inside
  · have hskeleton : m₁.skeleton = { m.skeleton with pending := (m.stack.size - 1) :: m.skeleton.pending } := by
      rw [hm₁]
      simp [Machine.skeleton]
    rw [hskeleton, hnext, h.skeleton, hsize]
    simp only [Skeleton.plus, List.map_cons, List.cons_append, Nat.add_sub_assoc hheight]

/-! ### Jumps and loops -/

theorem within (_ : RunningAt T P start m c E outer i) {item : Item} (hitem : (T c.code).items[i]? = some item) :
    item.Within ((T c.code).items.length - 1) i :=
  (T c.code).closed.within hitem

theorem skip (h : RunningAt T P start m c E outer i) {ahead : Nat}
    (hitem : (T c.code).items[i]? = some (.jump .always ahead)) :
    Comes T P start m E outer E.values (advance env c m) := by
  obtain ⟨distance, hread, hplace⟩ := h.read hitem
  have htarget : i + 1 + ahead ≤ (T c.code).items.length - 1 := h.within hitem
  have hsame : (T c.code).levels (i + 1 + ahead) = (T c.code).levels i := h.agrees hitem
  refine h.goOn (j := i + 1 + ahead) hread (by omega) ?_ h.confined ?_ ?_
  · rw [← hplace]
    rfl
  · rw [hsame]
    exact h.inside
  · rw [hsame]
    exact h.skeleton

/-- A jump that looks at the top value. -/
theorem branch (h : RunningAt T P start m c E outer i) {j : Code.Jump} {ahead : Nat}
    (hitem : (T c.code).items[i]? = some (.jump j ahead)) (hj : j ≠ .always) :
    Comes T P start m E outer E.values (advance env c m) := by
  obtain ⟨distance, hread, hplace⟩ := h.read hitem
  have hlt := h.next_lt hitem (by cases j <;> exact fun hop => by cases hop)
  have htarget : i + 1 + ahead ≤ (T c.code).items.length - 1 := h.within hitem
  have hagrees : 1 ≤ ((T c.code).levels i).height
      ∧ (T c.code).levels (i + 1) = { (T c.code).levels i with height := ((T c.code).levels i).height - 1 + j.kept }
      ∧ (T c.code).levels (i + 1 + ahead)
        = { (T c.code).levels i with height := ((T c.code).levels i).height - 1 + 1 } := by
    have hitem' := h.agrees hitem
    have hback {n : Nat} (hn : 1 ≤ n) : n - 1 + 1 = n := Nat.sub_add_cancel hn
    cases j with
    | always => exact absurd rfl hj
    | onFalse => exact ⟨hitem'.1, hitem'.2.1, by rw [hback hitem'.1]; exact hitem'.2.2⟩
    | onTrueKept | onFalseKept =>
      refine ⟨hitem'.1, ?_, by rw [hback hitem'.1]; exact hitem'.2.2⟩
      show _ = { (T c.code).levels i with height := ((T c.code).levels i).height - 1 + 1 }
      rw [hback hitem'.1]
      exact hitem'.2.1
  obtain ⟨hheight, hnext, hahead⟩ := hagrees
  obtain ⟨habove, hok⟩ := trades_jump env c hj distance ((T c.code).place (i + 1)) ((T c.code).place (i + 1)) m _
    (h.trade hheight)
  cases hcarry : carryOut env c (j.instr distance) ((T c.code).place (i + 1)) ((T c.code).place (i + 1)) m with
  | error e m' =>
    rw [hcarry] at habove
    exact comes_of_error hread hcarry (h.confined_of_above habove)
  | ok flow m' =>
    rw [hcarry] at habove
    obtain ⟨l, ⟨rfl, rfl⟩ | ⟨rfl, rfl⟩, hleft⟩ := hok flow m' hcarry
    · refine h.goOn hread hlt hcarry (h.confined_of_above habove) ?_ (h.skeleton_of_above habove hleft hnext)
      rw [hnext]
      exact h.inside
    · rw [hplace] at hcarry
      refine h.goOn (j := i + 1 + ahead) hread (by omega) hcarry (h.confined_of_above habove) ?_
        (h.skeleton_of_above habove hleft hahead)
      rw [hahead]
      exact h.inside

theorem loop (h : RunningAt T P start m c E outer i) {exit again : Nat}
    (hitem : (T c.code).items[i]? = some (.loop exit again)) :
    Comes T P start m E outer E.values (advance env c m) := by
  obtain ⟨b, d, firstEnd, hread, hexit, hagain⟩ := h.read hitem
  have hlt := h.next_lt hitem fun hop => by cases hop
  have hwithin : i + 1 + exit ≤ (T c.code).items.length - 1 ∧ i + 1 + again ≤ (T c.code).items.length - 1 :=
    h.within hitem
  obtain ⟨-, -, hnext, -⟩ := h.agrees hitem
  have hd := h.room
  have hcarry : carryOut env c (.loop b d) firstEnd ((T c.code).place (i + 1)) m
      = .ok (.goOn ((T c.code).place (i + 1))) { m with loops := m.loops.push ⟨m.scopes.size,
        c.base + firstEnd + b, c.base + (T c.code).place (i + 1) + d⟩ } := rfl
  refine h.goOn hread hlt hcarry ⟨⟨⟨hd.data, hd.calls, hd.args, hd.scopes, ?_⟩, rfl, rfl, rfl, rfl,
    take_push_of_le _ _ hd.loops⟩, h.values_le⟩ ?_ ?_
  · show start.loops.length ≤ (m.loops.push _).size
    rw [Array.size_push]
    exact Nat.le_succ_of_le hd.loops
  · rw [hnext]
    intro r hr
    rcases List.mem_cons.mp hr with rfl | hr
    · exact ⟨by show i + 1 + exit < _; omega, by show i + 1 + again < _; omega⟩
    · exact h.inside r hr
  · have hskeleton : ({ m with loops := m.loops.push ⟨m.scopes.size, c.base + firstEnd + b,
        c.base + (T c.code).place (i + 1) + d⟩ } : Machine W).skeleton
        = { m.skeleton with loops := ⟨m.scopes.size, c.base + firstEnd + b,
          c.base + (T c.code).place (i + 1) + d⟩ :: m.skeleton.loops } := by
      simp [Machine.skeleton]
    rw [hskeleton, hnext, h.skeleton, h.size_scopes, Nat.add_assoc c.base firstEnd b, hexit,
      Nat.add_assoc c.base _ d, hagain]
    rfl

theorem func (h : RunningAt T P start m c E outer i) {behind : Nat}
    (hitem : (T c.code).items[i]? = some (.func behind)) : Comes T P start m E outer E.values (advance env c m) := by
  obtain ⟨back, firstEnd, hread, -⟩ := h.read hitem
  have hlt := h.next_lt hitem fun hop => by cases hop
  have hnext : (T c.code).levels (i + 1) = ((T c.code).levels i).push := (h.agrees hitem).2
  cases hback : functionBack c.offset back with
  | error e =>
    refine comes_of_error (e := e) hread ?_ h.confined
    show (ofExcept (functionBack c.offset back) >>= _) m = _
    rw [hback]
    rfl
  | ok v =>
    obtain ⟨habove, hok⟩ := trades_push (W := W) (k := 0) v m _ (h.trade (Nat.zero_le _))
    obtain ⟨l, rfl, hleft⟩ := hok () _ rfl
    refine h.goOn hread hlt ?_ (h.confined_of_above habove) ?_ (h.skeleton_of_above habove hleft hnext)
    · show (ofExcept (functionBack c.offset back) >>= _) m = _
      rw [hback]
      rfl
    · rw [hnext]
      exact h.inside

/-- The loop that a jump out of a loop means is one of the innermost call. -/
theorem currentLoop_eq (h : RunningAt T P start m c E outer i) (word : String) :
    (∃ e, currentLoop word m = .error e m)
      ∨ ∃ r rest, ((T c.code).levels i).loops = r :: rest
        ∧ currentLoop word m = .ok (Skeleton.round (T c.code) c.base E.scopes r) m := by
  obtain ⟨frame, hback, -, hloops⟩ := h.frame
  have hlist : m.loops.toList.reverse
      = ((T c.code).levels i).loops.map (Skeleton.round (T c.code) c.base E.scopes) ++ E.loops :=
    congrArg Skeleton.loops h.skeleton
  have hsize : m.loops.size = ((T c.code).levels i).loops.length + E.loops.length := by
    have hlength := congrArg List.length hlist
    simpa using hlength
  simp only [currentLoop, inspect, topFrame?, hback, Option.map_some, Option.getD_some, hloops]
  cases hL : ((T c.code).levels i).loops with
  | nil =>
    rw [hL] at hsize
    rw [if_pos (by simp at hsize; omega)]
    exact .inl ⟨_, rfl⟩
  | cons r rest =>
    rw [hL] at hsize hlist
    have hlast : m.loops.back? = some (Skeleton.round (T c.code) c.base E.scopes r) := by
      rw [← Array.getLast?_toList, List.getLast?_eq_head?_reverse, hlist]
      rfl
    rw [if_neg (by simp at hsize; omega), hlast]
    exact .inr ⟨r, rest, rfl, rfl⟩

/-- An instruction that goes on at an offset, wherever that is. -/
theorem comes_of_jump (h : RunningAt T P start m c E outer i) {ins : Instr} {offset : Nat}
    (hread : Decoded.read c.code c.pos = .instr ins firstEnd next)
    (hcarry : carryOut env c ins firstEnd next m = .ok (.jump offset) m') (hm : Confined start.depths least m m')
    (hgo : ∀ c', m'.program.PartOf P → c.goTo m'.program offset ins.op = .ok c' →
      ∃ E' outer' L', Running T P start m' c' E' outer' L'
        ∧ (E' :: outer').map Skeleton.depths = entriesAfter m m' ((E :: outer).map Skeleton.depths)) :
    Comes T P start m E outer least (advance env c m) := by
  have hprogram : m'.program = m.program := by
    have hquiet := (quiet_carryOut env c ins firstEnd next m).1
    rwa [hcarry] at hquiet
  rw [advance_eq env hread, bind_eq, hcarry]
  simp only [settle, bind_eq, inspect]
  cases hto : c.goTo m'.program offset ins.op with
  | error e => exact hm
  | ok c' => exact ⟨hm, hgo c' (hprogram ▸ h.program) hto⟩

/-- An instruction that goes on at the offset of an item, with as many calls as before. -/
theorem jump (h : RunningAt T P start m c E outer i) {ins : Instr}
    (hread : Decoded.read c.code c.pos = .instr ins firstEnd next) {j : Nat} (hj : j < (T c.code).items.length)
    (hcarry : carryOut env c ins firstEnd next m = .ok (.jump (c.base + (T c.code).place j)) m')
    (hm : Confined start.depths least m m') (hinside : ((T c.code).levels j).Inside (T c.code).items.length)
    (hskeleton : m'.skeleton = E.plus (T c.code) c.base ((T c.code).levels j)) :
    Comes T P start m E outer least (advance env c m) := by
  refine h.comes_of_jump hread hcarry hm fun c' hprogram hgo => ?_
  obtain ⟨hbase, hcode, hat⟩ := h.charts.goTo_item hprogram h.place.has h.place.first h.place.has hj hgo
  refine ⟨E, outer, _, ⟨h.chain, hat, ?_, ?_⟩, ?_⟩
  · rw [hcode]
    exact hinside
  · rw [hcode, hbase]
    exact hskeleton
  · rw [entriesAfter_same]
    rw [h.size_frames, Machine.size_frames, hskeleton]
    rfl

theorem «break» (h : RunningAt T P start m c E outer i)
    (hitem : (T c.code).items[i]? = some (.plain .break)) :
    Comes T P start m E outer E.values (advance env c m) := by
  obtain ⟨firstEnd, hread⟩ := h.read hitem
  have hagrees : ((T c.code).levels i).pending = [] ∧ ∀ r rest, ((T c.code).levels i).loops = r :: rest →
      ((T c.code).levels i).height = r.height + 1 ∧ r.scopes ≤ ((T c.code).levels i).scopes
        ∧ (T c.code).levels r.exit = ⟨r.height + 1, r.scopes, rest, []⟩ := h.agrees hitem
  obtain ⟨hpending, hloop⟩ := hagrees
  rcases h.currentLoop_eq "break" with ⟨e, hcurrent⟩ | ⟨r, rest, hloops, hcurrent⟩
  · refine comes_of_error (e := e) hread ?_ h.confined
    show breakLoop m = _
    simp only [breakLoop, bind_eq, hcurrent]
  · obtain ⟨hheight, hscopes, hexit⟩ := hloop r rest hloops
    have hfloor := h.chain.floor.1
    have hd := h.room
    have hsizes := h.size_scopes
    have hlist : m.skeleton.loops = Skeleton.round (T c.code) c.base E.scopes r
        :: (rest.map (Skeleton.round (T c.code) c.base E.scopes) ++ E.loops) := by
      rw [h.skeleton, Skeleton.plus, hloops]
      rfl
    have hsize : start.loops.length < m.loops.size := by
      have hlength := congrArg List.length hlist
      have hE : start.loops.length ≤ E.loops.length := hfloor.loops
      simp [skeleton] at hlength
      omega
    let m₁ : Machine W := { m with loops := m.loops.pop, scopes := m.scopes.shrink (E.scopes + r.scopes) }
    have hcarry : carryOut env c .break firstEnd ((T c.code).place (i + 1)) m
        = .ok (.jump (c.base + (T c.code).place r.exit)) m₁ := by
      show breakLoop m = _
      simp only [breakLoop, bind_eq, hcurrent]
      rfl
    have hE : start.scopes ≤ E.scopes := hfloor.scopes
    refine h.jump hread (h.inside r (by rw [hloops]; exact List.mem_cons_self)).1 hcarry
      ⟨⟨⟨hd.data, hd.calls, hd.args, ?_, ?_⟩, rfl, rfl, rfl, take_shrink_of_le _ (Nat.le_add_right_of_le hE),
        take_pop_of_lt _ hsize⟩, h.values_le⟩ ?_ ?_
    · show start.scopes ≤ (m.scopes.shrink (E.scopes + r.scopes)).size
      rw [Array.size_shrink]
      omega
    · show start.loops.length ≤ m.loops.pop.size
      rw [Array.size_pop]
      omega
    · rw [hexit]
      exact fun r' hr' => h.inside r' (by rw [hloops]; exact List.mem_cons_of_mem _ hr')
    · have hskeleton : m₁.skeleton
          = { m.skeleton with scopes := min (E.scopes + r.scopes) m.scopes.size, loops := m.skeleton.loops.tail } := by
        simp [m₁, Machine.skeleton]
      rw [hskeleton, hlist, h.skeleton, hexit, hsizes, Nat.min_eq_left (Nat.add_le_add_left hscopes _)]
      simp only [Skeleton.plus, hpending, hheight, List.tail_cons]

theorem «continue» (h : RunningAt T P start m c E outer i)
    (hitem : (T c.code).items[i]? = some (.plain .continue)) :
    Comes T P start m E outer E.values (advance env c m) := by
  obtain ⟨firstEnd, hread⟩ := h.read hitem
  have hagrees : ((T c.code).levels i).pending = [] ∧ ∀ r rest, ((T c.code).levels i).loops = r :: rest →
      ((T c.code).levels i).height = r.height ∧ r.scopes ≤ ((T c.code).levels i).scopes
        ∧ (T c.code).levels r.again = ⟨r.height, r.scopes, r :: rest, []⟩ := h.agrees hitem
  obtain ⟨hpending, hloop⟩ := hagrees
  rcases h.currentLoop_eq "continue" with ⟨e, hcurrent⟩ | ⟨r, rest, hloops, hcurrent⟩
  · refine comes_of_error (e := e) hread ?_ h.confined
    show continueLoop m = _
    simp only [continueLoop, bind_eq, hcurrent]
  · obtain ⟨hheight, hscopes, hagain⟩ := hloop r rest hloops
    have hd := h.room
    have hsizes := h.size_scopes
    let m₁ : Machine W := { m with scopes := m.scopes.shrink (E.scopes + r.scopes) }
    have hcarry : carryOut env c .continue firstEnd ((T c.code).place (i + 1)) m
        = .ok (.jump (c.base + (T c.code).place r.again)) m₁ := by
      show continueLoop m = _
      simp only [continueLoop, bind_eq, hcurrent]
      rfl
    have hE : start.scopes ≤ E.scopes := h.chain.floor.1.scopes
    refine h.jump hread (h.inside r (by rw [hloops]; exact List.mem_cons_self)).2 hcarry
      ⟨⟨⟨hd.data, hd.calls, hd.args, ?_, hd.loops⟩, rfl, rfl, rfl, take_shrink_of_le _ (Nat.le_add_right_of_le hE),
        rfl⟩, h.values_le⟩ ?_ ?_
    · show start.scopes ≤ (m.scopes.shrink (E.scopes + r.scopes)).size
      rw [Array.size_shrink]
      omega
    · rw [hagain]
      exact fun r' hr' => h.inside r' (by rw [hloops]; exact hr')
    · have hskeleton : m₁.skeleton = { m.skeleton with scopes := min (E.scopes + r.scopes) m.scopes.size } := by
        simp [m₁, Machine.skeleton]
      rw [hskeleton, h.skeleton, hagain, hsizes, Nat.min_eq_left (Nat.add_le_add_left hscopes _)]
      simp only [Skeleton.plus, hpending, hheight, hloops]

/-! ### Calls and returns -/

/-- The pending call that was noted last, at a call. -/
theorem pending_eq (h : RunningAt T P start m c E outer i) {slot : Nat} {rest : List Nat}
    (hpending : ((T c.code).levels i).pending = slot :: rest) :
    ∃ call, m.pending.back? = some call ∧ call.calleeSlot = E.values + slot := by
  have hlist : m.pending.toList.reverse.map PendingCall.calleeSlot
      = (E.values + slot) :: (rest.map (E.values + ·) ++ E.pending) := by
    have hskeleton := congrArg Skeleton.pending h.skeleton
    rw [Skeleton.plus, hpending] at hskeleton
    exact hskeleton
  obtain ⟨call, tail, hcalls, hslot, -⟩ := List.map_eq_cons_iff.mp hlist
  refine ⟨call, ?_, hslot⟩
  rw [← Array.getLast?_toList, List.getLast?_eq_head?_reverse, hcalls]
  rfl

/-- A pending call was noted by the innermost call. -/
theorem pending_lt (h : RunningAt T P start m c E outer i) {slot : Nat} {rest : List Nat}
    (hpending : ((T c.code).levels i).pending = slot :: rest) : start.pending.length < m.pending.size := by
  have hlength := congrArg (fun s : Skeleton => s.pending.length) h.skeleton
  have hfloor : start.pending.length ≤ E.pending.length := h.chain.floor.1.args
  simp [skeleton, Skeleton.plus, hpending] at hlength
  omega

/-- A call was entered, or is about to be: a pending call gave way to a frame. -/
theorem confined_of_frame (h : RunningAt T P start m c E outer i) {slot : Nat} {rest : List Nat}
    (hpending : ((T c.code).levels i).pending = slot :: rest) {m' : Machine W}
    (hstack : m'.stack.size = m.stack.size ∧ m'.stack.take E.values = m.stack.take E.values)
    (hframes : m'.frames = m.frames ∨ ∃ frame, m'.frames = m.frames.push frame)
    (hargs : m'.pending = m.pending.pop) (hscopes : m'.scopes = m.scopes) (hloops : m'.loops = m.loops) :
    Confined start.depths E.values m m' := by
  have hd := h.room
  have hlt := h.pending_lt hpending
  have hfloor : start.depths.data ≤ E.values := Nat.le_of_lt h.chain.floor.2.1
  refine ⟨⟨⟨?_, ?_, ?_, ?_, ?_⟩, ?_, ?_, ?_, by rw [hscopes], by rw [hloops]⟩, ?_⟩
  · show start.values ≤ m'.stack.size
    rw [hstack.1]
    exact hd.data
  · show start.returns.length ≤ m'.frames.size
    have hcalls : start.returns.length ≤ m.frames.size := hd.calls
    rcases hframes with hsame | ⟨frame, hpush⟩
    · rwa [hsame]
    · rw [hpush, Array.size_push]
      omega
  · show start.pending.length ≤ m'.pending.size
    rw [hargs, Array.size_pop]
    omega
  · show start.scopes ≤ m'.scopes.size
    rw [hscopes]
    exact hd.scopes
  · show start.loops.length ≤ m'.loops.size
    rw [hloops]
    exact hd.loops
  · rw [← take_take_of_le _ hfloor, hstack.2, take_take_of_le _ hfloor]
  · rcases hframes with hsame | ⟨frame, hpush⟩
    · rw [hsame]
    · rw [hpush]
      exact take_push_of_le _ _ hd.calls
  · rw [hargs]
    exact take_pop_of_lt _ hlt
  · rw [hstack.1]
    exact h.values_le

/-- The frame of a call of code knows where the caller goes on. -/
theorem entered_framed (h : RunningAt T P start m c E outer i) {slot : Nat} {rest : List Nat}
    (hpending : ((T c.code).levels i).pending = slot :: rest) (hslot : slot < ((T c.code).levels i).height)
    (hnext : (T c.code).levels (i + 1) = { (T c.code).levels i with height := slot + 1, pending := rest })
    {call : PendingCall} (hcallee : call.calleeSlot = E.values + slot) :
    (framed m c.offset call).skeleton.Entered (E.plus (T c.code) c.base ((T c.code).levels (i + 1)))
      (some c.offset) := by
  have hloops : m.loops.size = (((T c.code).levels i).loops.map (Skeleton.round (T c.code) c.base E.scopes)
      ++ E.loops).length := by
    have hlength := congrArg (fun s : Skeleton => s.loops.length) h.skeleton
    simpa [skeleton, Skeleton.plus] using hlength
  refine ⟨E.values + slot, ?_, ?_, ?_, ?_, ?_, ?_⟩
  · rw [hnext]
    exact (Nat.add_assoc _ _ _).symm
  · rw [skeleton_framed, h.skeleton]
    exact Nat.add_lt_add_left hslot _
  · rw [skeleton_framed, h.size_scopes, hloops, hcallee, hnext, h.skeleton]
    rfl
  · rw [skeleton_framed, hnext, h.skeleton, Skeleton.plus, hpending]
    rfl
  · rw [skeleton_framed, hnext, h.skeleton]
    rfl
  · rw [skeleton_framed, hnext, h.skeleton]
    rfl

theorem call (h : RunningAt T P start m c E outer i) (hwithin : m.Within (T.Entry P))
    (hitem : (T c.code).items[i]? = some (.plain .call)) :
    Comes T P start m E outer E.values (advance env c m) := by
  obtain ⟨firstEnd, hread⟩ := h.read hitem
  have hagrees : ∃ slot rest, ((T c.code).levels i).pending = slot :: rest ∧ slot < ((T c.code).levels i).height
      ∧ (T c.code).levels (i + 1) = { (T c.code).levels i with height := slot + 1, pending := rest } := h.agrees hitem
  obtain ⟨slot, rest, hpending, hslot, hnext⟩ := hagrees
  have hlt := h.next_lt hitem (by decide)
  have hinside : ((T c.code).levels (i + 1)).Inside (T c.code).items.length := by
    rw [hnext]
    exact h.inside
  obtain ⟨call, hback, hcallee⟩ := h.pending_eq hpending
  have hsize := h.size_stack
  obtain ⟨v, hv⟩ : ∃ v, m.stack[call.calleeSlot]? = some v := ⟨_, Array.getElem?_eq_getElem (by omega)⟩
  have hcarry : carryOut env c .call firstEnd ((T c.code).place (i + 1)) m
      = callPending c.offset ((T c.code).place (i + 1)) m := rfl
  rcases callPending_eq hback hv c.offset ((T c.code).place (i + 1))
    with ⟨entry, rfl, hcall⟩ | ⟨args, hcall⟩ | ⟨e, hcall⟩
  · refine h.comes_of_jump hread (hcarry.trans hcall) (h.confined_of_frame hpending ⟨?_, ?_⟩ (.inr ⟨_, rfl⟩) rfl rfl rfl)
      fun c' hprogram hgo => ?_
    · exact Array.size_setIfInBounds
    · exact take_set_of_le _ _ (by omega)
    · have hentry : T.Entry P entry.val := h.charts.entry_of_within (hwithin.stack hv)
      have hat := h.charts.goTo_entry hprogram h.place.has h.place.first hentry hgo
      have hskeleton : ({ framed m c.offset call with
          stack := m.stack.setIfInBounds call.calleeSlot .undefined } : Machine W).skeleton
          = (framed m c.offset call).skeleton := by
        simp [framed, pushFrame, Machine.skeleton]
      have hsite : c.offset + 1 = c.base + (T c.code).place (i + 1) := by
        rw [h.of.stands.place_behind_call hitem, Cursor.offset, h.pos, Nat.add_assoc]
      refine ⟨_, E :: outer, .entry, ⟨.inner (h.entered_framed hpending hslot hnext hcallee) h.place.has hlt hsite ?_
        hinside h.chain, hat, (fun r hr => absurd hr List.not_mem_nil), hskeleton⟩, ?_⟩
      · rw [hnext]
        exact Nat.le_add_left 1 slot
      · rw [← hskeleton, List.map_cons, depths_skeleton, entriesAfter, if_pos]
        exact Nat.lt_of_lt_of_eq (Nat.lt_succ_self _) (Array.size_push _).symm
  · have hframed : Confined start.depths E.values m (framed m c.offset call) :=
      h.confined_of_frame hpending ⟨rfl, rfl⟩ (.inr ⟨_, rfl⟩) rfl rfl rfl
    rw [advance_eq env hread, bind_eq, hcarry, hcall]
    refine ⟨hframed, ?_, fun n hn => ?_⟩
    · exact Nat.lt_of_lt_of_eq (Nat.lt_succ_self _) (Array.size_push _).symm
    · have hslots := h.entered_framed hpending hslot hnext hcallee
      have hroom : start.depths.Le n.depths := by
        rw [← depths_skeleton, hn, depths_skeleton]
        exact hframed.room
      have hframes : n.frames.size = m.frames.size + 1 := by
        rw [Machine.size_frames, hn, ← Machine.size_frames]
        exact Array.size_push _
      have hleave : Untouched start.depths n n.leaveHost :=
        untouched_leaveHost hroom (by rw [hframes]; exact Nat.lt_succ_of_le h.room.calls)
      refine ⟨hleave, fun v => ⟨hleave.trans (untouched_putResult hleave.room ?_ v), (T c.code).levels (i + 1),
        h.chain, ⟨h.place.has, h.place.first, .inr ⟨i + 1, hlt, rfl, rfl⟩⟩, hinside, ?_⟩⟩
      · have hfloor : start.depths.data ≤ E.values := Nat.le_of_lt h.chain.floor.2.1
        omega
      · have hleft : n.leaveHost.skeleton = { (framed m c.offset call).skeleton with returns := m.skeleton.returns } := by
          rw [skeleton_leaveHost, hn, skeleton_framed]
          rfl
        rw [skeleton_putResult, size_stack, hleft, skeleton_framed, hcallee, hnext, h.skeleton]
        simp only [Skeleton.plus, hpending, List.map_cons, List.cons_append, List.tail_cons]
        congr 1
        omega
  · exact comes_of_error hread (hcarry.trans hcall) (h.confined_of_frame hpending ⟨rfl, rfl⟩ (.inl rfl) rfl rfl rfl)

/-- The stacks after the innermost call went back. -/
theorem goneBack (h : RunningAt T P start m c E outer i) (hpending : ((T c.code).levels i).pending = [])
    {after : Skeleton} {site : Option Nat} (hE : E.Entered after site) (hfloor : start.depths.Le after.depths)
    (hless : start.values < after.values) :
    ∃ frame, m.frames.back? = some frame ∧ frame.callSite = site ∧ (unframed m frame).skeleton = after
      ∧ Untouched start.depths m (unframed m frame) := by
  obtain ⟨slot, hvalues, hslot, hreturns, hargs, hscopes, hloops⟩ := hE
  have hlist : m.frames.toList.reverse.map Frame.bare
      = ⟨site, after.scopes, after.loops.length, slot⟩ :: after.returns :=
    (congrArg Skeleton.returns h.skeleton).trans hreturns
  obtain ⟨frame, rest, hframes, hbare, hrest⟩ := List.map_eq_cons_iff.mp hlist
  have hback : m.frames.back? = some frame := by
    rw [← Array.getLast?_toList, List.getLast?_eq_head?_reverse, hframes]
    rfl
  have hresult : frame.resultSlot = slot := congrArg Return.slot hbare
  have hcount : frame.loops = after.loops.length := congrArg Return.loops hbare
  have hdepth : frame.scopes = after.scopes := congrArg Return.scopes hbare
  have hall : m.loops.size = ((T c.code).levels i).loops.length + after.loops.length := by
    have hlength := congrArg (fun s : Skeleton => s.loops.length) h.skeleton
    simpa [skeleton, Skeleton.plus, hloops] using hlength
  have hskeleton : (unframed m frame).skeleton = after := by
    have hvalues' := h.values_le
    have hscopes' := h.size_scopes
    rw [skeleton_unframed, hresult, hdepth, hcount, hall, Nat.add_sub_cancel, h.skeleton]
    simp only [Skeleton.plus, hpending, hreturns, hargs, hloops, List.tail_cons, List.map_nil, List.nil_append]
    rw [List.drop_left' (by simp), Nat.min_eq_left (by omega), Nat.min_eq_left (by omega), ← hvalues]
  refine ⟨frame, hback, congrArg Return.callSite hbare, hskeleton, ?_, ?_, ?_, rfl, ?_, ?_⟩
  · rw [← depths_skeleton, hskeleton]
    exact hfloor
  · exact take_shrink_of_le _ (show start.values ≤ frame.resultSlot + 1 by omega)
  · refine take_pop_of_lt _ ?_
    rw [Machine.size_frames, h.skeleton]
    exact h.chain.floor.2.2
  · exact take_shrink_of_le _ (hdepth ▸ hfloor.scopes)
  · exact take_shrink_of_le _ (hcount ▸ hfloor.loops)

theorem «return» (h : RunningAt T P start m c E outer i)
    (hitem : (T c.code).items[i]? = some (.plain .return)) :
    Comes T P start m E outer 0 (advance env c m) := by
  obtain ⟨firstEnd, hread⟩ := h.read hitem
  have hpending : ((T c.code).levels i).pending = [] := h.agrees hitem
  have hcarry : carryOut env c .return firstEnd ((T c.code).place (i + 1)) m = returnFromCall m := rfl
  have hfewer (frame : Frame) (hback : m.frames.back? = some frame) : (unframed m frame).frames.size < m.frames.size := by
    have hpos : 0 < m.frames.size := Array.size_pos_iff.mpr fun hempty => by simp [hempty] at hback
    show m.frames.pop.size < m.frames.size
    rw [Array.size_pop]
    omega
  have hchain := h.chain
  cases hchain with
  | outermost hE =>
    have hmore : start.depths.Le { start with values := start.values + 1 }.depths :=
      ⟨Nat.le_succ _, Nat.le_refl _, Nat.le_refl _, Nat.le_refl _, Nat.le_refl _⟩
    obtain ⟨frame, hback, hsite, hskeleton, hsame⟩ := h.goneBack hpending hE hmore (Nat.lt_succ_self _)
    rw [returnFromCall_eq hback, hsite] at hcarry
    have hsize : (unframed m frame).stack.size = start.values + 0 + 1 := congrArg Skeleton.values hskeleton
    obtain ⟨habove, -⟩ := trades_pop (W := W) (k := 0) (unframed m frame) start.values hsize
    have hpopped : Confined start.depths 0 m (leftBy (pop (unframed m frame))) :=
      ⟨hsame.trans (habove.untouched hsame.room (Nat.le_refl _)), Nat.zero_le _⟩
    cases hpop : pop (unframed m frame) with
    | error e m₁ =>
      rw [hpop] at hpopped
      have hfailed : carryOut env c .return firstEnd ((T c.code).place (i + 1)) m = .error e m₁ := by
        rw [hcarry]
        simp only [bind_eq, hpop]
      exact comes_of_error hread hfailed hpopped
    | ok v m₁ =>
      rw [hpop] at hpopped
      have hfinished : carryOut env c .return firstEnd ((T c.code).place (i + 1)) m = .ok (.finish v) m₁ := by
        rw [hcarry]
        simp only [bind_eq, hpop]
        rfl
      exact comes_of_finish hread hfinished hpopped
  | @inner _ E' outer base j site unit hE hhas hj hsite hheight hinside hrest =>
    have hroom : E'.depths.Le (E'.plus (T unit) base ((T unit).levels j)).depths :=
      ⟨Nat.le_add_right _ _, Nat.le_refl _, by simp [Skeleton.depths, Skeleton.plus], Nat.le_add_right _ _,
        by simp [Skeleton.depths, Skeleton.plus]⟩
    obtain ⟨frame, hback, hcall, hskeleton, hsame⟩ := h.goneBack hpending hE (hrest.floor.1.trans hroom)
      (Nat.lt_of_lt_of_le hrest.floor.2.1 (Nat.le_add_right _ _))
    rw [returnFromCall_eq hback, hcall] at hcarry
    refine h.comes_of_jump hread hcarry ⟨hsame, Nat.zero_le _⟩ fun c' hprogram hgo => ?_
    rw [hsite] at hgo
    obtain ⟨hbase, hcode, hat⟩ := h.charts.goTo_item hprogram h.place.has h.place.first hhas hj hgo
    refine ⟨E', outer, (T unit).levels j, ⟨hrest, hat, ?_, ?_⟩, ?_⟩
    · rw [hcode]
      exact hinside
    · rw [hcode, hbase]
      exact hskeleton
    · have hless := hfewer frame hback
      rw [entriesAfter, if_neg (Nat.not_lt_of_lt hless), if_pos hless]
      rfl

/-! ### Steps -/

/-- A step of a run at an item, which leaves what the innermost call was entered with unless it goes back. -/
theorem advance (h : RunningAt T P start m c E outer i) (hwithin : m.Within (T.Entry P)) (env : Embedding W) :
    ∃ least, Comes T P start m E outer least (Machine.advance env c m)
      ∧ (least = E.values ∨ (T c.code).items[i]? = some (.plain .return)) := by
  obtain ⟨item, hitem⟩ : ∃ item, (T c.code).items[i]? = some item := ⟨_, List.getElem?_eq_getElem h.index⟩
  have hstay (hcomes : Comes T P start m E outer E.values (Machine.advance env c m)) :
      ∃ least, Comes T P start m E outer least (Machine.advance env c m)
        ∧ (least = E.values ∨ (T c.code).items[i]? = some (.plain .return)) := ⟨_, hcomes, .inl rfl⟩
  cases item with
  | jump j ahead =>
    by_cases hj : j = .always
    · subst hj
      exact hstay (h.skip hitem)
    · exact hstay (h.branch hitem hj)
  | loop exit again => exact hstay (h.loop hitem)
  | func behind => exact hstay (h.func hitem)
  | plain ins complete =>
    cases hflat : ins.isFlat with
    | true =>
      by_cases hresult : ins = .setRetVal
      · subst hresult
        exact hstay (h.setRetVal hitem)
      · exact hstay (h.flat hitem hflat hresult)
    | false =>
      have hagrees : ins.Agrees (T c.code).levels ((T c.code).levels i) ((T c.code).levels (i + 1)) := h.agrees hitem
      cases ins with
      | args => exact hstay (h.args hitem)
      | call => exact hstay (h.call hwithin hitem)
      | newScope => exact hstay (h.newScope hitem)
      | delScope => exact hstay (h.delScope hitem)
      | «break» => exact hstay (h.break hitem)
      | «continue» => exact hstay (h.continue hitem)
      | «return» => exact ⟨0, h.return hitem, .inr hitem⟩
      | exit => exact hstay (h.exit hitem)
      | header | jmp | jmpTrue | jmpFalse | jmpNeutralTrue | jmpNeutralFalse | loop | pushFunc => exact hagrees.elim
      | _ => cases hflat

end RunningAt

/-- The offset of a function that was made, if it is a machine word. -/
theorem functionBack_eq_ok {entry back : Nat} {v : Value} (h : functionBack (entry + back) back = .ok v)
    (hword : entry < UInt64.size) : ∃ start : Payload, v = .function start ∧ start.val = entry := by
  have hentry : (UInt64.ofNat entry).toNat = entry := Nat.mod_eq_of_lt hword
  rw [functionBack, if_pos (Nat.le_add_left _ _), Nat.add_sub_cancel, Value.ofFunction?, Payload.ofWord?] at h
  split at h
  · rename_i v' hmap
    cases h
    split at hmap
    · cases hmap
      exact ⟨_, rfl, hentry⟩
    · cases hmap
  · cases h

/-- The cursor is at a return. -/
def AtReturn (c : Cursor) : Prop :=
  ∃ firstEnd next, Decoded.read c.code c.pos = .instr .return firstEnd next

namespace Running

/-- A run is at the start of a unit, or at an item. -/
theorem at_item (h : Running T P start m c E outer L) (hcharts : T.Describe P) (hprogram : m.program.PartOf P) :
    c.pos = 0 ∧ L = .entry ∨ ∃ i, L = (T c.code).levels i ∧ RunningAt T P start m c E outer i := by
  rcases h.place.here with hstart | ⟨i, hi, hpos, rfl⟩
  · exact .inl hstart
  · exact .inr ⟨i, rfl, h, hcharts, hprogram, hi, hpos⟩

/-- A step of a run, which leaves what the innermost call was entered with unless it goes back. -/
theorem advance (h : Running T P start m c E outer L) (hcharts : T.Describe P) (hprogram : m.program.PartOf P)
    (hwithin : m.Within (T.Entry P)) (env : Embedding W) :
    ∃ least, Comes T P start m E outer least (Machine.advance env c m) ∧ (least = E.values ∨ AtReturn c) := by
  have hof := hcharts.of_has h.place.has
  rcases h.at_item hcharts hprogram with ⟨hpos, rfl⟩ | ⟨i, rfl, hat⟩
  · refine ⟨_, ?_, .inl rfl⟩
    have hread : Decoded.read c.code c.pos = .instr .header 1 1 := by
      rw [hpos]
      exact hof.header
    have hstart : (T c.code).levels 0 = .entry := hof.levels.start
    have hcarry : carryOut env c .header 1 1 m = .ok (.goOn ((T c.code).place 0)) m := by
      rw [← h.place.first]
      rfl
    rw [advance_eq env hread, bind_eq, hcarry]
    refine h.next h.confined (T c.code).closed.length_pos ?_ ?_ _
    · rw [hstart]
      exact h.inside
    · rw [hstart]
      exact h.skeleton
  · obtain ⟨least, hcomes, hleast⟩ := hat.advance hwithin env
    refine ⟨least, hcomes, hleast.imp_right fun hitem => ?_⟩
    obtain ⟨firstEnd, hread⟩ := hat.read hitem
    exact ⟨firstEnd, _, hread⟩

/-- The functions that code makes start where functions of the code start. -/
theorem functionBack (h : Running T P start m c E outer L) (hcharts : T.Describe P) (hprogram : m.program.PartOf P)
    {back firstEnd next : Nat} {v : Value}
    (hread : Decoded.read c.code c.pos = .instr (.pushFunc back) firstEnd next)
    (hv : Machine.functionBack c.offset back = .ok v) : v.Within (T.Entry P) := by
  have hof := hcharts.of_has h.place.has
  rcases h.at_item hcharts hprogram with ⟨hpos, -⟩ | ⟨i, rfl, hat⟩
  · rw [hpos, hof.header] at hread
    cases hread
  · rcases hat.item_of_read hread with ⟨complete, hitem⟩ | ⟨j, _, _, -, hins⟩ | ⟨_, _, _, _, -, hins⟩
      | ⟨behind, back', hitem, hins, hback⟩
    · exact (hat.agrees hitem).elim
    · cases j <;> cases hins
    · cases hins
    · cases hins
      have hoffset : c.offset = c.base + (T c.code).place (i - behind) + back := by
        rw [Cursor.offset, hat.pos, ← hback, Nat.add_assoc]
      have hlow := hcharts.place_lt h.place.has (Nat.lt_of_le_of_lt (Nat.sub_le i behind) hat.index)
      have hhigh := hcharts.committed.stop_le h.place.has
      have hsmall := hcharts.small
      rw [hoffset] at hv
      obtain ⟨entry, rfl, hentry⟩ := functionBack_eq_ok hv (by omega)
      exact Value.within_function ⟨c.base, c.code, i, behind, h.place.has, hitem, hentry⟩

/-- A step keeps the functions of a machine to those of the code. -/
theorem within (h : Running T P start m c E outer L) (hcharts : T.Describe P) (hprogram : m.program.PartOf P)
    (hwithin : m.Within (T.Entry P)) (env : Embedding W) :
    (leftBy (Machine.advance env c m)).Within (T.Entry P)
      ∧ ∀ step m', Machine.advance env c m = .ok step m' → StepWithin (T.Entry P) step :=
  hwithin.advance env c fun _ _ _ _ hread hv => h.functionBack hcharts hprogram hread hv

end Running

end Items

end Machine

end ScriptEngine
