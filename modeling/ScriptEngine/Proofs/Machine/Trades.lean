import ScriptEngine.Proofs.Code.Levels
import ScriptEngine.Proofs.Machine.Operations
/-!
What work does to the stacks.

Work is `Still` when it leaves all five stacks alone, as all work on the heap does. Work that `Trades` some
of the top values for others does nothing to the values below those and to the other stacks, whether it
fails or not. The flat instructions trade what `Instr.takes` says for what `Instr.leaves` says
(`trades_carryOut`).
-/

namespace ScriptEngine

/-- How many values a jump leaves where it does not jump, of the one that it looks at. -/
def Code.Jump.kept : Code.Jump → Nat
  | .onFalse => 0
  | _ => 1

namespace Machine

open Code (Instr Op Operator)

variable {W α β : Type}

/-! ## Still work -/

/-- The same stacks. -/
structure SameStacks (m m' : Machine W) : Prop where
  stack : m'.stack = m.stack
  frames : m'.frames = m.frames
  pending : m'.pending = m.pending
  scopes : m'.scopes = m.scopes
  loops : m'.loops = m.loops

theorem SameStacks.refl (m : Machine W) : m.SameStacks m :=
  ⟨rfl, rfl, rfl, rfl, rfl⟩

theorem SameStacks.trans {m m' m'' : Machine W} (h : m.SameStacks m') (h' : m'.SameStacks m'') :
    m.SameStacks m'' :=
  ⟨h'.stack.trans h.stack, h'.frames.trans h.frames, h'.pending.trans h.pending, h'.scopes.trans h.scopes,
    h'.loops.trans h.loops⟩

/-- Work that leaves the stacks alone. -/
def Still (work : Work W α) : Prop :=
  ∀ m : Machine W, m.SameStacks (leftBy (work m))

theorem still_pure (a : α) : Still (pure a : Work W α) :=
  fun m => .refl m

theorem still_throw (e : Error) : Still (throw e : Work W α) :=
  fun m => .refl m

theorem still_bind {work : Work W α} {next : α → Work W β} (h : Still work) (hnext : ∀ a, Still (next a)) :
    Still (work >>= next) := by
  intro m
  have hm := h m
  rw [bind_eq]
  cases hwork : work m with
  | ok a m' =>
    rw [hwork] at hm
    exact hm.trans (hnext a m')
  | error e m' =>
    rw [hwork] at hm
    exact hm

theorem still_inspect (f : Machine W → Except Error α) : Still (inspect f) := by
  intro m
  unfold inspect
  split <;> exact .refl m

theorem still_ofExcept (x : Except Error α) : Still (ofExcept x : Work W α) := by
  cases x with
  | ok a => exact still_pure a
  | error e => exact still_throw e

theorem still_onHeap (f : EStateM Error Heap α) : Still (onHeap f : Work W α) := by
  intro m
  unfold onHeap
  split <;> exact ⟨rfl, rfl, rfl, rfl, rfl⟩

theorem still_alloc (f : Heap → Heap × Value) : Still (alloc f : Work W Value) :=
  fun _ => ⟨rfl, rfl, rfl, rfl, rfl⟩

theorem still_modify {f : Machine W → Machine W} (h : ∀ m : Machine W, m.SameStacks (f m)) :
    Still (modify f : Work W Unit) := h

theorem still_modifyGet {f : Machine W → α × Machine W} (h : ∀ m : Machine W, m.SameStacks (f m).2) :
    Still (modifyGet f : Work W α) := h

theorem still_topScope : Still (topScope : Work W Value) := by
  intro m
  unfold topScope
  split <;> exact .refl m

theorem still_keyString (key : Value) : Still (keyString key : Work W Value) := by
  unfold keyString
  split
  · exact still_pure key
  · exact still_bind (still_inspect _) fun _ => still_onHeap _

theorem still_setNamed (id : ObjectId) (key v : Value) : Still (setNamed id key v : Work W Unit) :=
  still_bind (still_keyString key) fun _ => still_onHeap _

theorem still_setForeignItem (env : Embedding W) (address : UInt64) (b : UInt8) :
    Still (setForeignItem env address b) :=
  still_bind (still_ofExcept _) fun _ => still_bind (still_inspect _) fun _ =>
    still_modify fun _ => ⟨rfl, rfl, rfl, rfl, rfl⟩

theorem still_setProperty (env : Embedding W) (holder key v : Value) : Still (setProperty env holder key v) := by
  unfold setProperty
  split
  · exact still_setNamed _ key v
  · refine still_bind (still_inspect _) fun name => ?_
    split
    · exact still_onHeap _
    · exact still_setNamed _ key v
  · exact still_bind (still_ofExcept _) fun _ => still_onHeap _
  · exact still_bind (still_ofExcept _) fun _ => still_onHeap _
  · exact still_bind (still_ofExcept _) fun _ => still_setForeignItem env _ _
  · exact still_throw _

theorem still_binary (op : Operator) (a b : Value) : Still (binary op a b : Work W Value) := by
  unfold binary
  split
  · exact still_ofExcept _
  · exact still_ofExcept _
  · exact still_ofExcept _
  · exact still_pure _
  · split
    · exact still_onHeap _
    · exact still_throw _
  · exact still_throw _

theorem still_unary (op : Operator) (v : Value) : Still (unary op v : Work W Value) := by
  unfold unary
  split
  · exact still_bind (still_inspect _) fun _ => still_pure _
  · exact still_pure _
  · exact still_pure _
  · exact still_pure _
  · exact still_onHeap _
  · exact still_throw _

theorem still_update (env : Embedding W) (op : Operator) (holder key v : Value) :
    Still (update env op holder key v) :=
  still_bind (still_inspect _) fun old => still_bind (still_binary op old v) fun new =>
    still_bind (still_setProperty env holder key new) fun _ => still_pure _

theorem still_declare (holder key : Value) : Still (declare holder key : Work W Unit) := by
  unfold declare
  split
  · exact still_throw _
  · refine still_bind (still_inspect _) fun known => ?_
    split
    · exact still_onHeap _
    · exact still_pure _

theorem still_argument (index : Nat) : Still (argument index : Work W Value) :=
  still_inspect _

theorem still_setArgument (env : Embedding W) (index : Nat) (name : List UInt8) :
    Still (setArgument env index name) :=
  still_bind (still_onHeap _) fun key => still_bind (still_argument index) fun v =>
    still_bind still_topScope fun scope => still_setProperty env scope key v

/-! ## Trades -/

/-- From one machine to another, nothing happened to the lowest `n` values and to the other stacks. -/
structure Above (n : Nat) (m m' : Machine W) : Prop where
  room : n ≤ m'.stack.size
  values : m'.stack.take n = m.stack.take n
  frames : m'.frames = m.frames
  pending : m'.pending = m.pending
  scopes : m'.scopes = m.scopes
  loops : m'.loops = m.loops

section Above

variable {n n' : Nat} {m m' m'' : Machine W}

theorem SameStacks.above (h : m.SameStacks m') (hn : n ≤ m.stack.size) : Above n m m' := by
  refine ⟨?_, ?_, h.frames, h.pending, h.scopes, h.loops⟩
  · rw [h.stack]
    exact hn
  · rw [h.stack]

theorem Above.trans (h : Above n m m') (h' : Above n m' m'') : Above n m m'' :=
  ⟨h'.room, h'.values.trans h.values, h'.frames.trans h.frames, h'.pending.trans h.pending,
    h'.scopes.trans h.scopes, h'.loops.trans h.loops⟩

theorem take_take_of_le {ι : Type} (xs : Array ι) (h : n' ≤ n) : (xs.take n).take n' = xs.take n' := by
  apply Array.ext'
  simp [Nat.min_eq_left h]

theorem Above.mono (h : Above n m m') (hle : n' ≤ n) : Above n' m m' :=
  ⟨Nat.le_trans hle h.room, by rw [← take_take_of_le m'.stack hle, h.values, take_take_of_le _ hle], h.frames,
    h.pending, h.scopes, h.loops⟩

end Above

/-- Work that, where there are `k` values or more, does nothing below the top `k` ones. `left` says how many
it leaves in place of these if it does not fail. -/
def Trades (k : Nat) (left : α → Nat → Prop) (work : Work W α) : Prop :=
  ∀ (m : Machine W) (n : Nat), m.stack.size = n + k →
    Above n m (leftBy (work m)) ∧ ∀ a m', work m = .ok a m' → ∃ l, left a l ∧ m'.stack.size = n + l

section Trades

variable {k j : Nat} {work : Work W α} {next : α → Work W β} {left : β → Nat → Prop}

theorem trades_pure (a : α) : Trades (W := W) k (fun b l => b = a ∧ l = k) (pure a) := by
  refine fun m n hsize => ⟨(SameStacks.refl m).above (by omega), fun b m' h => ?_⟩
  cases h
  exact ⟨k, ⟨rfl, rfl⟩, hsize⟩

theorem trades_throw (e : Error) (left : α → Nat → Prop) : Trades (W := W) k left (throw e) :=
  fun m n hsize => ⟨(SameStacks.refl m).above (by omega), fun _ _ h => by cases h⟩

theorem Still.trades {P : α → Prop} (h : Still work) (hP : ∀ m a m', work m = .ok a m' → P a) :
    Trades k (fun a l => P a ∧ l = k) work := by
  refine fun m n hsize => ⟨(h m).above (by omega), fun a m' hwork => ⟨k, ⟨hP m a m' hwork, rfl⟩, ?_⟩⟩
  have hm := h m
  rw [hwork] at hm
  exact (congrArg Array.size hm.stack).trans hsize

theorem Trades.bind_of {mid : α → Nat → Prop} (h : Trades k mid work)
    (hnext : ∀ a l, mid a l → Trades l left (next a)) : Trades k left (work >>= next) := by
  intro m n hsize
  obtain ⟨habove, hok⟩ := h m n hsize
  rw [bind_eq]
  cases hwork : work m with
  | error e m' =>
    rw [hwork] at habove
    exact ⟨habove, fun _ _ h => by cases h⟩
  | ok a m' =>
    rw [hwork] at habove
    obtain ⟨l, hmid, hleft⟩ := hok a m' hwork
    obtain ⟨habove', hok'⟩ := hnext a l hmid m' n hleft
    exact ⟨habove.trans habove', hok'⟩

/-- Work that leaves a fixed number of values, and what follows. -/
theorem Trades.bind (h : Trades k (fun _ l => l = j) work) (hnext : ∀ a, Trades j left (next a)) :
    Trades k left (work >>= next) :=
  h.bind_of fun a _ hl => hl ▸ hnext a

theorem Still.bind (h : Still work) (hnext : ∀ a, Trades k left (next a)) : Trades k left (work >>= next) :=
  (h.trades (P := fun _ => True) fun _ _ _ _ => trivial).bind_of fun a _ hl => hl.2 ▸ hnext a

theorem Still.trades_same (h : Still work) : Trades k (fun _ l => l = k) work :=
  fun m n hsize => (h.trades (P := fun _ => True) (fun _ _ _ _ => trivial) m n hsize).imp_right
    fun hok a m' hwork => let ⟨l, hl, hleft⟩ := hok a m' hwork; ⟨l, hl.2, hleft⟩

end Trades

/-! ## Values -/

section Values

variable {k : Nat}

theorem trades_push (v : Value) : Trades (W := W) k (fun _ l => l = k + 1) (push v) := by
  refine fun m n hsize => ⟨⟨?_, ?_, rfl, rfl, rfl, rfl⟩, fun a m' h => ?_⟩
  · show n ≤ (m.stack.push v).size
    rw [Array.size_push]
    omega
  · show (m.stack.push v).take n = m.stack.take n
    apply Array.ext'
    simp only [Array.take_eq_extract, Array.toList_extract, Array.toList_push, List.extract_eq_take_drop,
      List.drop_zero, Nat.sub_zero]
    rw [List.take_append_of_le_length (by simp; omega)]
  · cases h
    refine ⟨k + 1, rfl, ?_⟩
    show (m.stack.push v).size = _
    rw [Array.size_push]
    omega

theorem trades_pop : Trades (W := W) (k + 1) (fun _ l => l = k) pop := by
  intro m n hsize
  have hpos : m.stack.size - 1 < m.stack.size := by omega
  have hpop : (pop m : EStateM.Result Error (Machine W) Value)
      = .ok m.stack[m.stack.size - 1] { m with stack := m.stack.pop } := by
    simp only [pop, Array.back?, Array.getElem?_eq_getElem hpos]
  rw [hpop]
  refine ⟨⟨?_, ?_, rfl, rfl, rfl, rfl⟩, fun a m' h => ?_⟩
  · show n ≤ m.stack.pop.size
    rw [Array.size_pop]
    omega
  · show m.stack.pop.take n = m.stack.take n
    apply Array.ext'
    simp [List.dropLast_eq_take, List.take_take]
    omega
  · cases h
    refine ⟨k, rfl, ?_⟩
    show m.stack.pop.size = _
    rw [Array.size_pop]
    omega

/-- Work that puts other values in place of the top ones. -/
theorem above_of_same_take {m : Machine W} {n : Nat} {stack : Array Value} (hroom : n ≤ stack.size)
    (hvalues : stack.take n = m.stack.take n) : Above n m { m with stack := stack } :=
  ⟨hroom, hvalues, rfl, rfl, rfl, rfl⟩

theorem trades_peek {places : Nat} (h : places < k) :
    Trades (W := W) k (fun _ l => l = k) (peek places) := by
  intro m n hsize
  have hlt : m.stack.size - 1 - places < m.stack.size := by omega
  have hpeek : (peek places m : EStateM.Result Error (Machine W) Value)
      = .ok m.stack[m.stack.size - 1 - places] m := by
    simp only [peek, below?, if_pos (show places < m.stack.size by omega), Array.getElem?_eq_getElem hlt]
  rw [hpeek]
  refine ⟨(SameStacks.refl m).above (by omega), fun a m' h => ?_⟩
  cases h
  exact ⟨k, rfl, hsize⟩

theorem take_set_of_le (xs : Array Value) {n i : Nat} (v : Value) (h : n ≤ i) :
    (xs.setIfInBounds i v).take n = xs.take n := by
  apply Array.ext'
  simp only [Array.take_eq_extract, Array.toList_extract, Array.toList_setIfInBounds, List.extract_eq_take_drop,
    List.drop_zero, Nat.sub_zero]
  exact List.take_set_of_le h

theorem trades_replaceTop (v : Value) : Trades (W := W) (k + 1) (fun _ l => l = k + 1) (replaceTop v) := by
  intro m n hsize
  have hne : m.stack.isEmpty = false := decide_eq_false (by omega)
  simp only [replaceTop, hne, Bool.false_eq_true, if_false]
  refine ⟨above_of_same_take ?_ (take_set_of_le _ v (by omega)), fun a m' h => ?_⟩
  · rw [Array.size_setIfInBounds]
    omega
  · cases h
    exact ⟨k + 1, rfl, by rw [Array.size_setIfInBounds, hsize]⟩

theorem trades_swapTop : Trades (W := W) (k + 2) (fun _ l => l = k + 2) swapTop := by
  intro m n hsize
  have hlt : m.stack.size - 1 < m.stack.size := by omega
  have hlt' : m.stack.size - 1 - 1 < m.stack.size := by omega
  simp only [swapTop, below?, if_pos (show 0 < m.stack.size by omega), if_pos (show 1 < m.stack.size by omega),
    Nat.sub_zero, Array.getElem?_eq_getElem hlt, Array.getElem?_eq_getElem hlt']
  refine ⟨above_of_same_take ?_ ?_, fun a m' h => ?_⟩
  · simp
    omega
  · apply Array.ext'
    simp only [Array.take_eq_extract, Array.toList_extract, Array.toList_push, Array.toList_pop,
      List.extract_eq_take_drop, List.drop_zero, Nat.sub_zero]
    have hlength : m.stack.toList.length = n + (k + 2) := by simpa using hsize
    rw [List.append_assoc, List.take_append_of_le_length (by simp; omega), List.dropLast_eq_take,
      List.dropLast_eq_take, List.take_take, List.take_take, List.length_take, hlength,
      show min (min n (min (n + (k + 2) - 1) (n + (k + 2)) - 1)) (n + (k + 2) - 1) = n by omega]
  · cases h
    refine ⟨k + 2, rfl, ?_⟩
    simp
    omega

end Values

/-! ## Operators and properties -/

theorem trades_twoOperands {f : Value → Value → Work W Value} (h : ∀ a b, Still (f a b)) :
    Trades 2 (fun _ l => l = 1) (do
      let b ← pop
      let a ← pop
      push (← f a b)) :=
  .bind trades_pop fun b => .bind trades_pop fun a => (h a b).bind fun v => trades_push v

theorem trades_compoundAssign (env : Embedding W) (op : Operator) :
    Trades 3 (fun _ l => l = 1) (compoundAssign env op) := by
  refine .bind trades_pop fun v => .bind trades_pop fun holder => .bind trades_pop fun key => ?_
  split
  · exact (still_throw _).bind fun _ => (still_update env op holder key v).bind fun _ => trades_push _
  · exact (still_update env op holder key v).bind fun _ => trades_push _

theorem trades_step (env : Embedding W) (op : Operator) (symbol : String) (givesNew : Bool) :
    Trades 2 (fun _ l => l = 1) (step env op symbol givesNew) := by
  refine .bind trades_pop fun holder => .bind trades_pop fun key => ?_
  cases givesNew <;>
  · simp only
    split
    · exact (still_throw _).bind fun _ => (still_update env op holder key _).bind fun _ => trades_push _
    · exact (still_update env op holder key _).bind fun _ => trades_push _

theorem trades_assign (env : Embedding W) : Trades 3 (fun _ l => l = 1) (assign env) :=
  .bind trades_pop fun v => .bind trades_pop fun holder => .bind trades_pop fun key =>
    (still_setProperty env holder key v).bind fun _ => trades_push v

/-- An operator trades its operands for its value. -/
theorem trades_operate (env : Embedding W) (op : Operator) :
    Trades op.operands (fun _ l => l = 1) (operate env op) := by
  cases op with
  | add | sub | mul | div | rem | shl | shr | ushr | bitAnd | bitOr | bitXor =>
    exact trades_twoOperands fun a b => still_binary _ a b
  | lt | le | gt | ge =>
    exact .bind trades_pop fun b => .bind trades_pop fun a => trades_push _
  | eq | ne => exact trades_throw _ _
  | strictEq | strictNe =>
    exact .bind trades_pop fun b => .bind trades_pop fun a => (still_inspect _).bind fun same => trades_push _
  | not | bitNot | neg | pos | typeOf =>
    exact .bind trades_pop fun v => (still_unary _ v).bind fun result => trades_push result
  | assign => exact trades_assign env
  | addAssign | subAssign | mulAssign | divAssign | remAssign | shlAssign | shrAssign | ushrAssign
  | bitAndAssign | bitOrAssign | bitXorAssign => exact trades_compoundAssign env _
  | preInc | preDec | postInc | postDec => exact trades_step env _ _ _

theorem trades_lookUp (env : Embedding W) (previous : Op) :
    Trades 2 (fun _ l => l = 1) (lookUp env previous) :=
  .bind trades_pop fun _ => .bind trades_pop fun _ => (still_inspect _).bind fun v =>
    (trades_push v).bind fun _ => Still.trades_same fun _ => ⟨rfl, rfl, rfl, rfl, rfl⟩

theorem trades_append : Trades (W := W) 2 (fun _ l => l = 0) append := by
  refine .bind trades_pop fun v => .bind trades_pop fun target => ?_
  split
  · exact (still_onHeap _).trades_same
  · exact trades_throw _ _

theorem trades_walk (env : Embedding W) : Trades 3 (fun _ l => l = 3) (walk env) := by
  refine (trades_peek (by decide)).bind fun number => (trades_peek (by decide)).bind fun holder =>
    (trades_peek (by decide)).bind fun name => (still_inspect _).bind fun key => ?_
  split
  · exact (still_inspect _).bind fun scope => (still_setProperty env scope name _).bind fun _ =>
      trades_replaceTop _
  · exact trades_replaceTop _

/-! ## Instructions -/

/-- A flat instruction trades the values that it takes for those that it leaves, and goes on behind itself.
The one that notes a result is apart: its slot is below. -/
theorem trades_carryOut (env : Embedding W) (c : Cursor) {i : Instr} (hflat : i.isFlat = true)
    (hresult : i ≠ .setRetVal) (firstEnd next : Nat) :
    Trades i.takes (fun flow l => flow = .goOn next ∧ l = i.leaves) (carryOut env c i firstEnd next) := by
  have hnext (k : Nat) : Trades (W := W) k (fun flow l => flow = Flow.goOn next ∧ l = k) (pure (Flow.goOn next)) :=
    trades_pure _
  cases i with
  | nop => exact hnext 0
  | drop => exact .bind trades_pop fun _ => hnext 0
  | dup => exact (trades_peek (by decide)).bind fun v => (trades_push v).bind fun _ => hnext 2
  | dup2 =>
    exact (trades_peek (by decide)).bind fun a => (trades_peek (by decide)).bind fun b =>
      (trades_push a).bind fun _ => (trades_push b).bind fun _ => hnext 4
  | swap => exact .bind trades_swapTop fun _ => hnext 2
  | findScope =>
    exact (trades_peek (by decide)).bind fun name => (still_inspect _).bind fun v =>
      (trades_push v).bind fun _ => hnext 2
  | pushScope => exact still_topScope.bind fun v => (trades_push v).bind fun _ => hnext 1
  | pushStr text => exact (still_onHeap _).bind fun v => (trades_push v).bind fun _ => hnext 1
  | pushTrue | pushFalse | pushNull | pushUndef | pushInt | pushDbl =>
    exact (trades_push _).bind fun _ => hnext 1
  | pushObj | pushArray => exact (still_alloc _).bind fun v => (trades_push v).bind fun _ => hnext 1
  | pushThis => exact (still_inspect _).bind fun v => (trades_push v).bind fun _ => hnext 1
  | get => exact (trades_lookUp env _).bind fun _ => hnext 1
  | create =>
    exact .bind trades_pop fun holder => .bind trades_pop fun key => (still_declare holder key).bind fun _ => hnext 0
  | expr op => exact (trades_operate env op).bind fun _ => hnext 1
  | append => exact trades_append.bind fun _ => hnext 0
  | setArg index name => exact (still_setArgument env index name).bind fun _ => hnext 0
  | setRetVal => exact absurd rfl hresult
  | forInNext => exact (trades_walk env).bind fun _ => hnext 3
  | _ => cases hflat

theorem Trades.weaken {k : Nat} {left left' : α → Nat → Prop} {work : Work W α} (h : Trades k left work)
    (himp : ∀ a l, left a l → left' a l) : Trades k left' work :=
  fun m n hsize => (h m n hsize).imp_right fun hok a m' hwork =>
    let ⟨l, hl, hleft⟩ := hok a m' hwork; ⟨l, himp a l hl, hleft⟩

theorem trades_jumpIf (wanted : Bool) (pos distance : Nat) :
    Trades (W := W) 1 (fun flow l => flow = .goOn pos ∧ l = 0 ∨ flow = .goOn (pos + distance) ∧ l = 1)
      (jumpIf wanted pos distance) := by
  refine .bind trades_pop fun v => (still_inspect _).bind fun holds => ?_
  split
  · exact (trades_push _).bind fun _ => (trades_pure _).weaken fun _ _ => .inr
  · exact (trades_pure _).weaken fun _ _ => .inl

theorem trades_jumpKeeping (wanted : Bool) (pos distance : Nat) :
    Trades (W := W) 1 (fun flow l => flow = .goOn pos ∧ l = 1 ∨ flow = .goOn (pos + distance) ∧ l = 1)
      (jumpKeeping wanted pos distance) := by
  refine (trades_peek (by decide)).bind fun v => (still_inspect _).bind fun holds => (trades_pure _).weaken ?_
  rintro flow l ⟨rfl, rfl⟩
  split
  · exact .inr ⟨rfl, rfl⟩
  · exact .inl ⟨rfl, rfl⟩

/-- A jump that looks at the top value leaves a value where it jumps. -/
theorem trades_jump (env : Embedding W) (c : Cursor) {j : Code.Jump} (hj : j ≠ .always) (distance firstEnd next : Nat) :
    Trades 1 (fun flow l => flow = .goOn next ∧ l = j.kept ∨ flow = .goOn (next + distance) ∧ l = 1)
      (carryOut env c (j.instr distance) firstEnd next) := by
  cases j with
  | always => exact absurd rfl hj
  | onFalse => exact trades_jumpIf false next distance
  | onTrueKept => exact trades_jumpKeeping true next distance
  | onFalseKept => exact trades_jumpKeeping false next distance

end Machine

end ScriptEngine
