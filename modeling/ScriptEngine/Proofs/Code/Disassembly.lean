import ScriptEngine.Proofs.Code.Listings
import ScriptEngine.Proofs.Varint
/-!
Listings of any bytes.

`disassemble` lists a unit with every slice, every sum of offsets and every turn of the loop checked. It lists what
`lines?` does (`disassemble_eq`), and the only check that can fail is that of a target. What is listed are rows
that stand one behind the other in the code, whose targets are counted from the end of their operands
(`disassembly_of_bytes`).
-/

namespace ScriptEngine.Varint

theorem used_of_decodeGroups {groups : Nat} {bytes : List UInt8} {v used : Nat}
    (h : decodeGroups groups bytes = some (v, used)) : 0 < used ∧ used ≤ bytes.length := by
  fun_induction decodeGroups groups bytes generalizing v used with
  | case1 | case2 => cases h
  | case3 groups b rest hlast =>
    cases h
    simp
  | case4 groups b rest hmore ih =>
    obtain ⟨⟨w, usedRest⟩, hrest, heq⟩ := Option.map_eq_some_iff.mp h
    cases heq
    have := ih hrest
    rw [List.length_cons]
    omega

/-- A number takes at least one byte, and no more than there are. -/
theorem used_of_decode {bytes : List UInt8} {v used : Nat} (h : decode bytes = some (v, used)) :
    0 < used ∧ used ≤ bytes.length := by
  obtain ⟨⟨w, used'⟩, hgroups, heq⟩ := Option.map_eq_some_iff.mp h
  cases heq
  exact used_of_decodeGroups hgroups

end ScriptEngine.Varint

namespace ScriptEngine.Code.Listing

/-! ## Checked reading -/

/-- Why a line ends early: the operands are cut off behind some text, or a check fails. -/
inductive Stop where
  | cutOff (text : String)
  | fault
  deriving DecidableEq, Repr

/-- The sum of two offsets, which has to be one. -/
def sum (a b : Nat) : Except Stop Nat :=
  match offset? (a + b) with
  | some n => .ok n
  | none => .error .fault

/-- Takes the byte at a position. -/
def takeByte (code : Array UInt8) (pos : Nat) : Except Stop (UInt8 × Nat) :=
  match code[pos]? with
  | some b => do
    let next ← sum pos 1
    return (b, next)
  | none => .error (.cutOff "")

/-- Takes the number at a position. -/
def takeNumber (code : Array UInt8) (pos : Nat) : Except Stop (Nat × Nat) :=
  match if pos ≤ code.size then Varint.decode (code.toList.drop pos) else none with
  | some (v, used) => do
    let next ← sum pos used
    return (v, next)
  | none => .error (.cutOff "")

/-- Takes as many bytes behind some text. -/
def takeBytes (code : Array UInt8) (pos length : Nat) (text : String) : Except Stop (List UInt8 × Nat) :=
  match (offset? (pos + length)).bind fun _ => Decoded.take? code pos length with
  | some bytes => do
    let next ← sum pos length
    return (bytes, next)
  | none => .error (.cutOff text)

/-- The operands at a position of an instruction that starts at `start`, as text, and the position behind them. -/
def operandsAt (code : Array UInt8) (op : Op) (base start pos : Nat) : Except Stop (String × Nat) :=
  match op with
  | .jmp | .jmpTrue | .jmpNeutralTrue | .jmpFalse | .jmpNeutralFalse => do
    let (distance, pos) ← takeNumber code pos
    let stop ← sum base pos
    let target ← sum stop distance
    return ("  " ++ toString target, pos)
  | .loop => do
    let (b, pos) ← takeNumber code pos
    let stop ← sum base pos
    let brk ← sum stop b
    let (c, pos) ← takeNumber code pos
    let stop ← sum base pos
    let cont ← sum stop c
    return ("  B:" ++ toString brk ++ " C:" ++ toString cont, pos)
  | .expr => do
    let (b, pos) ← takeByte code pos
    match Operator.ofByte? b with
    | some o => return ("  " ++ o.symbol, pos)
    | none => return ("  ??? (" ++ toString b.toNat ++ ")", pos)
  | .pushStr => do
    let (length, pos) ← takeNumber code pos
    let (text, pos) ← takeBytes code pos length "  "
    return ("  " ++ quote text, pos)
  | .pushInt => do
    let (n, pos) ← takeNumber code pos
    return ("  " ++ toString n, pos)
  | .pushDbl => do
    let (bytes, pos) ← takeBytes code pos 8 ""
    return ("  " ++ (Number.ofBits (UInt64.ofNat (Instr.wordOf bytes))).plainText, pos)
  | .pushFunc => do
    let (back, pos) ← takeNumber code pos
    let start ← sum base start
    if back ≤ start then return ("  " ++ toString (start - back), pos) else throw (.cutOff "")
  | .setArg => do
    let (index, pos) ← takeNumber code pos
    let (length, pos) ← takeNumber code pos
    let (name, pos) ← takeBytes code pos length ""
    return ("  [" ++ Text.Utf8.decodeLossy name ++ "] " ++ toString index, pos)
  | _ => return ("", pos)

/-- Operands behind the front of their line. -/
def behind (front : String) : Except Stop (String × Nat) → Except Stop (String × Nat)
  | .ok (text, next) => .ok (front ++ text, next)
  | .error (.cutOff text) => .error (.cutOff (front ++ text))
  | .error .fault => .error .fault

/-- The line of the instruction at a position, and the position behind it. -/
def rowAt (code : Array UInt8) (base pos : Nat) : Except Stop (String × Nat) := do
  let (b, next) ← takeByte code pos
  let start ← sum base pos
  match Op.ofByte? b with
  | none => return (toString start ++ "\t" ++ "???  (" ++ toString b.toNat ++ ")", next)
  | some op => behind (toString start ++ "\t" ++ op.name) (operandsAt code op base pos next)

/-- The lines from a position on, if as many turns are enough. -/
def rowsAt (code : Array UInt8) (base pos : Nat) : Nat → Option (List String)
  | 0 => if pos < code.size then none else some []
  | turns + 1 =>
    if pos < code.size then
      match rowAt code base pos with
      | .ok (line, next) => (rowsAt code base next turns).map (line :: ·)
      | .error (.cutOff line) => some [line]
      | .error .fault => none
    else some []

/-- The lines of the unit at offset `base`, unless a check fails. -/
def disassemble (unit : Array UInt8) (base : Nat) : Option (List String) :=
  match Header.read? unit with
  | none => some [toString base ++ "\t???  malformed header"]
  | some header => do
    let nameStop ← if 1 ≤ header.codeStart then some (header.codeStart - 1) else none
    let name := if headerSize ≤ nameStop ∧ nameStop ≤ unit.size then
      Text.Utf8.decodeLossy (unit.extract headerSize nameStop).toList else ""
    let first := toString base ++ "\t" ++ Op.header.name ++ "  [" ++ name ++ "] size:"
      ++ toString header.total ++ " code:" ++ toString header.codeStart ++ " map:"
      ++ toString header.mapStart
    let code ← if header.mapStart ≤ unit.size then some (unit.extract 0 header.mapStart) else none
    let rest ← rowsAt code base header.codeStart code.size
    return first :: rest

/-! ## The same lines -/

section Agreement

variable {code : Array UInt8} {base pos : Nat} {op : Op}

/-- The line of what is read at a position, and the position behind it. -/
def lineOf (code : Array UInt8) (base pos : Nat) : Decoded → Except Stop (String × Nat)
  | .missing => .error .fault
  | .unknownOpcode b => .ok (toString (base + pos) ++ "\t" ++ "???  (" ++ toString b.toNat ++ ")", pos + 1)
  | .unknownOperator b next =>
    behind (toString (base + pos) ++ "\t" ++ Op.expr.name) (.ok ("  ??? (" ++ toString b.toNat ++ ")", next))
  | .truncated op _ lengthRead =>
    behind (toString (base + pos) ++ "\t" ++ op.name) <|
      if losesBreak code base pos op then .error .fault
      else .error (.cutOff (if op == .pushStr && lengthRead then "  " else ""))
  | .instr i firstEnd next =>
    behind (toString (base + pos) ++ "\t" ++ i.op.name) <|
      match operandsOf i base pos firstEnd next with
      | .operands text => .ok (text, next)
      | .cutOff text => .error (.cutOff text)
      | .overflow => .error .fault

theorem withNumber_ne_missing {k : Nat → Nat → Decoded} (hk : ∀ v next, k v next ≠ .missing) :
    Decoded.withNumber code op pos k ≠ .missing := by
  unfold Decoded.withNumber
  split
  · exact hk _ _
  · exact fun h => by cases h

theorem withText_ne_missing {k : List UInt8 → Nat → Decoded} (hk : ∀ text next, k text next ≠ .missing) :
    Decoded.withText code op pos k ≠ .missing := by
  refine withNumber_ne_missing fun length start => ?_
  split
  · exact hk _ _
  · exact fun h => by cases h

theorem operands_ne_missing : Decoded.operands code op pos ≠ .missing := by
  cases op with
  | jmp | jmpTrue | jmpNeutralTrue | jmpFalse | jmpNeutralFalse | pushInt | pushFunc =>
    simp only [Decoded.operands]
    exact withNumber_ne_missing fun _ _ h => by cases h
  | loop =>
    simp only [Decoded.operands]
    exact withNumber_ne_missing fun _ _ => withNumber_ne_missing fun _ _ h => by cases h
  | pushStr =>
    simp only [Decoded.operands]
    exact withText_ne_missing fun _ _ h => by cases h
  | setArg =>
    simp only [Decoded.operands]
    exact withNumber_ne_missing fun _ _ => withText_ne_missing fun _ _ h => by cases h
  | pushDbl =>
    simp only [Decoded.operands]
    split <;> exact fun h => by cases h
  | expr =>
    simp only [Decoded.operands]
    split
    · split <;> exact fun h => by cases h
    · exact fun h => by cases h
  | _ => exact fun h => by cases h

theorem linesFrom_succ (hpos : pos < code.size) (steps : Nat) :
    linesFrom code base pos (steps + 1) = match lineOf code base pos (Decoded.read code pos) with
      | .ok (line, next) => (linesFrom code base next steps).map (line :: ·)
      | .error (.cutOff line) => some [line]
      | .error .fault => none := by
  rw [linesFrom, if_neg (by omega)]
  cases hread : Decoded.read code pos with
  | missing =>
    rw [Decoded.read, Array.getElem?_eq_getElem hpos] at hread
    cases hop : Op.ofByte? code[pos] with
    | none =>
      simp only [hop] at hread
      cases hread
    | some op =>
      simp only [hop] at hread
      exact absurd hread operands_ne_missing
  | unknownOpcode b =>
    simp only [lineOf]
    cases linesFrom code base (pos + 1) steps <;> rfl
  | unknownOperator b next =>
    simp only [lineOf, behind, String.append_assoc]
    cases linesFrom code base next steps <;> rfl
  | truncated op p lengthRead =>
    simp only [lineOf]
    split <;> rfl
  | instr i firstEnd next =>
    simp only [lineOf]
    cases operandsOf i base pos firstEnd next with
    | operands text =>
      simp only [behind]
      cases linesFrom code base next steps <;> rfl
    | cutOff text => rfl
    | overflow => rfl

theorem sum_eq {a b : Nat} (h : a + b < UInt64.size) : sum a b = .ok (a + b) := by
  rw [sum, offset?, if_pos h]

/-- A number is taken as it is decoded; where it ends is an offset. -/
theorem takeNumber_cases (hsize : code.size < UInt64.size) (hpos : pos ≤ code.size) :
    (∃ v used, Varint.decodeAt (fun i => code[i]?) pos = some (v, used) ∧ pos + used ≤ code.size
      ∧ takeNumber code pos = .ok (v, pos + used))
    ∨ (Varint.decodeAt (fun i => code[i]?) pos = none ∧ takeNumber code pos = .error (.cutOff "")) := by
  have hlist : (fun i : Nat => code[i]?) = fun i => code.toList[i]? := by
    funext i
    rw [Array.getElem?_toList]
  rw [takeNumber, if_pos hpos, hlist, Varint.decodeAt_eq_decode]
  cases hdecode : Varint.decode (code.toList.drop pos) with
  | some found =>
    obtain ⟨v, used⟩ := found
    obtain ⟨-, hused⟩ := Varint.used_of_decode hdecode
    rw [List.length_drop, Array.length_toList] at hused
    refine .inl ⟨v, used, rfl, by omega, ?_⟩
    simp only [sum_eq (show pos + used < UInt64.size by omega)]
    rfl
  | none => exact .inr ⟨rfl, rfl⟩

/-- So are the bytes of a text. -/
theorem takeBytes_eq (hsize : code.size < UInt64.size) (length : Nat) (text : String) :
    takeBytes code pos length text = match Decoded.take? code pos length with
      | some bytes => .ok (bytes, pos + length)
      | none => .error (.cutOff text) := by
  unfold takeBytes Decoded.take? offset?
  by_cases hroom : pos + length ≤ code.size
  · have hlt : pos + length < UInt64.size := by omega
    simp only [if_pos hroom, if_pos hlt, Option.bind_some, sum_eq hlt]
    rfl
  · simp only [if_neg hroom, Option.bind_fun_none]

theorem ok_bind {α β : Type} (a : α) (f : α → Except Stop β) : (Except.ok a >>= f) = f a := rfl

theorem error_bind {α β : Type} (e : Stop) (f : α → Except Stop β) : (Except.error e >>= f) = .error e := rfl

theorem pure_eq {α : Type} (a : α) : (pure a : Except Stop α) = .ok a := rfl

/-- The line of an instruction is that of what is read there: every check but that of a target succeeds. -/
theorem operandsAt_eq (hbase : base + code.size < UInt64.size) (hpos : pos < code.size) :
    behind (toString (base + pos) ++ "\t" ++ op.name) (operandsAt code op base pos (pos + 1))
      = lineOf code base pos (Decoded.operands code op (pos + 1)) := by
  have hsize : code.size < UInt64.size := by omega
  have hnext : pos + 1 ≤ code.size := hpos
  have hend {stop : Nat} (h : stop ≤ code.size) : sum base stop = .ok (base + stop) := sum_eq (by omega)
  cases op with
  | jmp | jmpTrue | jmpNeutralTrue | jmpFalse | jmpNeutralFalse =>
    simp only [operandsAt, Decoded.operands, Decoded.withNumber]
    obtain ⟨d, used, hdecode, hle, htake⟩ | ⟨hdecode, htake⟩ := takeNumber_cases hsize hnext
    · simp only [hdecode, htake, ok_bind, hend hle, pure_eq, lineOf, operandsOf, target]
      unfold sum
      cases offset? (base + (pos + 1 + used) + d) <;> rfl
    · simp only [hdecode, htake]
      rfl
  | loop =>
    simp only [operandsAt, Decoded.operands, Decoded.withNumber]
    obtain ⟨b, used, hdecode, hle, htake⟩ | ⟨hdecode, htake⟩ := takeNumber_cases hsize hnext
    · obtain ⟨c, used', hdecode', hle', htake'⟩ | ⟨hdecode', htake'⟩ := takeNumber_cases hsize hle
      · simp only [hdecode, htake, hdecode', htake', ok_bind, hend hle, hend hle', pure_eq, lineOf, operandsOf]
        unfold sum
        cases offset? (base + (pos + 1 + used) + b) <;> cases offset? (base + (pos + 1 + used + used') + c) <;> rfl
      · simp only [hdecode, htake, hdecode', htake', ok_bind, hend hle, lineOf, losesBreak]
        unfold sum
        cases offset? (base + (pos + 1 + used) + b) <;> rfl
    · simp only [hdecode, htake, error_bind, lineOf, losesBreak]
      rfl
  | pushInt =>
    simp only [operandsAt, Decoded.operands, Decoded.withNumber]
    obtain ⟨n, used, hdecode, hle, htake⟩ | ⟨hdecode, htake⟩ := takeNumber_cases hsize hnext
    · simp only [hdecode, htake]
      rfl
    · simp only [hdecode, htake]
      rfl
  | pushFunc =>
    simp only [operandsAt, Decoded.operands, Decoded.withNumber]
    obtain ⟨back, used, hdecode, hle, htake⟩ | ⟨hdecode, htake⟩ := takeNumber_cases hsize hnext
    · simp only [hdecode, htake, ok_bind, hend (Nat.le_of_lt hpos), lineOf, operandsOf]
      by_cases hback : back ≤ base + pos
      · simp only [if_pos hback]
        rfl
      · simp only [if_neg hback]
        rfl
    · simp only [hdecode, htake]
      rfl
  | pushStr =>
    simp only [operandsAt, Decoded.operands, Decoded.withText, Decoded.withNumber]
    obtain ⟨length, used, hdecode, hle, htake⟩ | ⟨hdecode, htake⟩ := takeNumber_cases hsize hnext
    · simp only [hdecode, htake, ok_bind, takeBytes_eq hsize]
      cases Decoded.take? code (pos + 1 + used) length <;> rfl
    · simp only [hdecode, htake]
      rfl
  | setArg =>
    simp only [operandsAt, Decoded.operands, Decoded.withText, Decoded.withNumber]
    obtain ⟨index, used, hdecode, hle, htake⟩ | ⟨hdecode, htake⟩ := takeNumber_cases hsize hnext
    · obtain ⟨length, used', hdecode', hle', htake'⟩ | ⟨hdecode', htake'⟩ := takeNumber_cases hsize hle
      · simp only [hdecode, htake, hdecode', htake', ok_bind, takeBytes_eq hsize]
        cases Decoded.take? code (pos + 1 + used + used') length <;> rfl
      · simp only [hdecode, htake, hdecode', htake', ok_bind]
        rfl
    · simp only [hdecode, htake]
      rfl
  | pushDbl =>
    simp only [operandsAt, Decoded.operands, takeBytes_eq hsize]
    cases Decoded.take? code (pos + 1) 8 <;> rfl
  | expr =>
    simp only [operandsAt, Decoded.operands, takeByte]
    cases hb : code[pos + 1]? with
    | none => rfl
    | some b =>
      obtain ⟨hlt, -⟩ := Array.getElem?_eq_some_iff.mp hb
      simp only [sum_eq (show pos + 1 + 1 < UInt64.size by omega), ok_bind, pure_eq]
      cases Operator.ofByte? b <;> rfl
  | _ => rfl

theorem rowAt_eq (hbase : base + code.size < UInt64.size) (hpos : pos < code.size) :
    rowAt code base pos = lineOf code base pos (Decoded.read code pos) := by
  have hbyte : takeByte code pos = .ok (code[pos], pos + 1) := by
    rw [takeByte, Array.getElem?_eq_getElem hpos]
    simp only [sum_eq (show pos + 1 < UInt64.size by omega)]
    rfl
  simp only [rowAt, hbyte, ok_bind, sum_eq (show base + pos < UInt64.size by omega), Decoded.read,
    Array.getElem?_eq_getElem hpos]
  cases hop : Op.ofByte? code[pos] with
  | none => simp only [pure_eq, lineOf]
  | some op =>
    simp only []
    exact operandsAt_eq hbase hpos

/-! ## Rows -/

/-- Something is taken, or it is cut off: no check fails, and there are bytes up to where it ends. -/
def Onward {α : Type} (code : Array UInt8) (pos : Nat) : Except Stop (α × Nat) → Prop
  | .ok (_, next) => pos ≤ next ∧ next ≤ code.size
  | .error (.cutOff _) => True
  | .error .fault => False

theorem Onward.bind {α β : Type} {x : Except Stop (α × Nat)} {f : α × Nat → Except Stop (β × Nat)}
    (hx : Onward code pos x) (hf : ∀ a next, pos ≤ next → next ≤ code.size → Onward code next (f (a, next))) :
    Onward code pos (x >>= f) := by
  match x, hx with
  | .ok (a, next), ⟨hge, hle⟩ =>
    have := hf a next hge hle
    rw [ok_bind]
    match hy : f (a, next) with
    | .ok (b, last) =>
      rw [hy] at this
      exact ⟨Nat.le_trans hge this.1, this.2⟩
    | .error (.cutOff _) => trivial
    | .error .fault =>
      rw [hy] at this
      exact this
  | .error (.cutOff _), _ => trivial

theorem onward_takeNumber (hsize : code.size < UInt64.size) (hpos : pos ≤ code.size) :
    Onward code pos (takeNumber code pos) := by
  obtain ⟨v, used, -, hle, htake⟩ | ⟨-, htake⟩ := takeNumber_cases hsize hpos
  · rw [htake]
    exact ⟨Nat.le_add_right .., hle⟩
  · rw [htake]
    trivial

theorem onward_takeBytes (hsize : code.size < UInt64.size) (length : Nat) (text : String) :
    Onward code pos (takeBytes code pos length text) := by
  rw [takeBytes_eq hsize]
  unfold Decoded.take?
  by_cases hroom : pos + length ≤ code.size
  · rw [if_pos hroom]
    exact ⟨Nat.le_add_right .., hroom⟩
  · rw [if_neg hroom]
    trivial

theorem onward_takeByte (hsize : code.size < UInt64.size) : Onward code pos (takeByte code pos) := by
  unfold takeByte
  cases hb : code[pos]? with
  | none => trivial
  | some b =>
    obtain ⟨hlt, -⟩ := Array.getElem?_eq_some_iff.mp hb
    simp only [sum_eq (show pos + 1 < UInt64.size by omega), ok_bind, pure_eq]
    exact ⟨Nat.le_add_right .., hlt⟩

/-- Operands without targets are taken or cut off. -/
theorem onward_operandsAt {start : Nat} (hbase : base + code.size < UInt64.size) (hstart : start ≤ code.size)
    (hpos : pos ≤ code.size) (hjump : op.isJump = false) (hloop : op ≠ .loop) :
    Onward code pos (operandsAt code op base start pos) := by
  have hsize : code.size < UInt64.size := by omega
  cases op with
  | jmp | jmpTrue | jmpNeutralTrue | jmpFalse | jmpNeutralFalse => cases hjump
  | loop => exact absurd rfl hloop
  | expr =>
    refine (onward_takeByte hsize).bind fun b next _ hle => ?_
    simp only []
    cases Operator.ofByte? b <;> exact ⟨Nat.le_refl _, hle⟩
  | pushStr =>
    refine (onward_takeNumber hsize hpos).bind fun length next _ hle => ?_
    exact (onward_takeBytes hsize length "  ").bind fun text last _ hle => ⟨Nat.le_refl _, hle⟩
  | pushInt => exact (onward_takeNumber hsize hpos).bind fun n next _ hle => ⟨Nat.le_refl _, hle⟩
  | pushDbl => exact (onward_takeBytes hsize 8 "").bind fun bytes next _ hle => ⟨Nat.le_refl _, hle⟩
  | pushFunc =>
    refine (onward_takeNumber hsize hpos).bind fun back next _ hle => ?_
    simp only [sum_eq (show base + start < UInt64.size by omega), ok_bind]
    split
    · exact ⟨Nat.le_refl _, hle⟩
    · trivial
  | setArg =>
    refine (onward_takeNumber hsize hpos).bind fun index next _ hle => ?_
    refine (onward_takeNumber hsize hle).bind fun length last _ hle => ?_
    exact (onward_takeBytes hsize length "").bind fun name last _ hle => ⟨Nat.le_refl _, hle⟩
  | _ => exact ⟨Nat.le_refl _, hpos⟩

/-- The operation code at a position. -/
def opAt? (code : Array UInt8) (pos : Nat) : Option Op :=
  code[pos]?.bind Op.ofByte?

/-- A number stands at a position, in front of another one. -/
def NumberAt (code : Array UInt8) (pos v next : Nat) : Prop :=
  ∃ used, Varint.decodeAt (fun i => code[i]?) pos = some (v, used) ∧ next = pos + used

/-- The instruction at a position has a target: some distance from the end of the operand that says it. -/
inductive Aim (code : Array UInt8) (pos : Nat) : (stop distance : Nat) → Prop
  | jump {op : Op} {stop d : Nat} (hop : opAt? code pos = some op) (hjump : op.isJump = true)
    (hd : NumberAt code (pos + 1) d stop) : Aim code pos stop d
  | leave {stop b : Nat} (hop : opAt? code pos = some .loop) (hb : NumberAt code (pos + 1) b stop) :
    Aim code pos stop b
  | again {b mid stop c : Nat} (hop : opAt? code pos = some .loop) (hb : NumberAt code (pos + 1) b mid)
    (hc : NumberAt code mid c stop) : Aim code pos stop c

/-- A line about the bytes at a position of the code of a unit at offset `base`. -/
inductive Row (code : Array UInt8) (base pos : Nat) : String → Prop
  | jump {op : Op} {stop d : Nat} (hop : opAt? code pos = some op) (hjump : op.isJump = true)
    (hd : NumberAt code (pos + 1) d stop) :
    Row code base pos (toString (base + pos) ++ "\t" ++ op.name ++ ("  " ++ toString (base + stop + d)))
  | loop {b mid c stop : Nat} (hop : opAt? code pos = some .loop) (hb : NumberAt code (pos + 1) b mid)
    (hc : NumberAt code mid c stop) :
    Row code base pos (toString (base + pos) ++ "\t" ++ Op.loop.name
      ++ ("  B:" ++ toString (base + mid + b) ++ " C:" ++ toString (base + stop + c)))
  | cutJump {op : Op} (hop : opAt? code pos = some op) (hjump : op.isJump = true)
    (hcut : ∀ d stop, ¬ NumberAt code (pos + 1) d stop) :
    Row code base pos (toString (base + pos) ++ "\t" ++ op.name)
  | cutLoop (hop : opAt? code pos = some .loop)
    (hcut : ∀ b mid c stop, NumberAt code (pos + 1) b mid → ¬ NumberAt code mid c stop) :
    Row code base pos (toString (base + pos) ++ "\t" ++ Op.loop.name)
  | other {op : Op} (hop : opAt? code pos = some op) (hjump : op.isJump = false) (hloop : op ≠ .loop)
    (text : String) :
    Row code base pos (toString (base + pos) ++ "\t" ++ op.name ++ text)
  | unknown {b : UInt8} (hb : code[pos]? = some b) (hop : Op.ofByte? b = none) :
    Row code base pos (toString (base + pos) ++ "\t" ++ "???  (" ++ toString b.toNat ++ ")")

/-- All targets of the instruction at a position are offsets. -/
def Fits (code : Array UInt8) (base pos : Nat) : Prop :=
  ∀ stop distance, Aim code pos stop distance → base + stop + distance < UInt64.size

theorem numberAt_unique {v w next next' : Nat} (h : NumberAt code pos v next) (h' : NumberAt code pos w next') :
    v = w ∧ next = next' := by
  obtain ⟨used, hdecode, rfl⟩ := h
  obtain ⟨used', hdecode', rfl⟩ := h'
  rw [hdecode] at hdecode'
  cases hdecode'
  exact ⟨rfl, rfl⟩

theorem not_numberAt (h : Varint.decodeAt (fun i => code[i]?) pos = none) (v next : Nat) :
    ¬ NumberAt code pos v next := by
  rintro ⟨used, hdecode, -⟩
  rw [h] at hdecode
  cases hdecode

namespace Aim

variable {stop distance : Nat}

theorem of_jump (h : Aim code pos stop distance) (hop : opAt? code pos = some op) (hjump : op.isJump = true) :
    NumberAt code (pos + 1) distance stop := by
  cases h with
  | jump _ _ hd => exact hd
  | leave hloop | again hloop =>
    rw [hop] at hloop
    cases hloop
    cases hjump

theorem of_loop (h : Aim code pos stop distance) :
    NumberAt code (pos + 1) distance stop
      ∨ ∃ b mid, NumberAt code (pos + 1) b mid ∧ NumberAt code mid distance stop := by
  cases h with
  | jump _ _ hd => exact .inl hd
  | leave _ hb => exact .inl hb
  | again _ hb hc => exact .inr ⟨_, _, hb, hc⟩

/-- Other instructions have no targets. -/
theorem of_other (h : Aim code pos stop distance) (hop : opAt? code pos = some op) :
    op.isJump = true ∨ op = .loop := by
  cases h with
  | jump hop' hjump =>
    rw [hop] at hop'
    cases hop'
    exact .inl hjump
  | leave hop' | again hop' =>
    rw [hop] at hop'
    cases hop'
    exact .inr rfl

end Aim

theorem operandsAt_jump {start : Nat} (hjump : op.isJump = true) :
    operandsAt code op base start pos = takeNumber code pos >>= fun (d, pos) => sum base pos >>= fun stop =>
      sum stop d >>= fun n => .ok ("  " ++ toString n, pos) := by
  cases op with
  | jmp | jmpTrue | jmpNeutralTrue | jmpFalse | jmpNeutralFalse => rfl
  | _ => cases hjump

theorem rowAt_of_op (hbase : base + code.size < UInt64.size) (hpos : pos < code.size)
    (hop : opAt? code pos = some op) :
    rowAt code base pos
      = behind (toString (base + pos) ++ "\t" ++ op.name) (operandsAt code op base pos (pos + 1)) := by
  rw [opAt?, Array.getElem?_eq_getElem hpos, Option.bind_some] at hop
  simp only [rowAt, takeByte, Array.getElem?_eq_getElem hpos, sum_eq (show pos + 1 < UInt64.size by omega), ok_bind,
    sum_eq (show base + pos < UInt64.size by omega), pure_eq, hop]

/-- What was read at a position is a row, with the position behind it; or else a target is no offset. -/
def Lists (code : Array UInt8) (base pos : Nat) : Except Stop (String × Nat) → Prop
  | .ok (line, next) => Row code base pos line ∧ Fits code base pos ∧ pos < next
  | .error (.cutOff line) => Row code base pos line ∧ Fits code base pos
  | .error .fault => ¬ Fits code base pos

theorem lists_jump (hbase : base + code.size < UInt64.size) (hpos : pos < code.size)
    (hop : opAt? code pos = some op) (hjump : op.isJump = true) : Lists code base pos (rowAt code base pos) := by
  have hsize : code.size < UInt64.size := by omega
  rw [rowAt_of_op hbase hpos hop, operandsAt_jump hjump]
  obtain ⟨d, used, hdecode, hle, htake⟩ | ⟨hdecode, htake⟩ := takeNumber_cases hsize (Nat.succ_le_of_lt hpos)
  · have hd : NumberAt code (pos + 1) d (pos + 1 + used) := ⟨used, hdecode, rfl⟩
    simp only [htake, ok_bind, sum_eq (show base + (pos + 1 + used) < UInt64.size by omega)]
    by_cases hfit : base + (pos + 1 + used) + d < UInt64.size
    · rw [sum_eq hfit, ok_bind]
      refine ⟨.jump hop hjump hd, fun stop distance haim => ?_, by omega⟩
      obtain ⟨rfl, rfl⟩ := numberAt_unique hd (haim.of_jump hop hjump)
      exact hfit
    · rw [sum, offset?, if_neg hfit]
      exact fun hall => hfit (hall _ _ (.jump hop hjump hd))
  · simp only [htake, error_bind]
    have hcut := not_numberAt hdecode
    refine ⟨?_, fun stop distance haim => absurd (haim.of_jump hop hjump) (hcut _ _)⟩
    rw [String.append_empty]
    exact .cutJump hop hjump hcut

theorem lists_loop (hbase : base + code.size < UInt64.size) (hpos : pos < code.size)
    (hop : opAt? code pos = some .loop) : Lists code base pos (rowAt code base pos) := by
  have hsize : code.size < UInt64.size := by omega
  rw [rowAt_of_op hbase hpos hop]
  simp only [operandsAt]
  obtain ⟨b, used, hdecode, hle, htake⟩ | ⟨hdecode, htake⟩ := takeNumber_cases hsize (Nat.succ_le_of_lt hpos)
  · have hb : NumberAt code (pos + 1) b (pos + 1 + used) := ⟨used, hdecode, rfl⟩
    simp only [htake, ok_bind, sum_eq (show base + (pos + 1 + used) < UInt64.size by omega)]
    by_cases hleave : base + (pos + 1 + used) + b < UInt64.size
    -- the break target is there before the second distance is read
    · simp only [sum_eq hleave, ok_bind]
      obtain ⟨c, used', hdecode', hle', htake'⟩ | ⟨hdecode', htake'⟩ := takeNumber_cases hsize hle
      · have hc : NumberAt code (pos + 1 + used) c (pos + 1 + used + used') := ⟨used', hdecode', rfl⟩
        simp only [htake', ok_bind, sum_eq (show base + (pos + 1 + used + used') < UInt64.size by omega)]
        by_cases hagain : base + (pos + 1 + used + used') + c < UInt64.size
        · rw [sum_eq hagain, ok_bind]
          refine ⟨.loop hop hb hc, fun stop distance haim => ?_, by omega⟩
          rcases haim.of_loop with hd | ⟨_, _, hb', hd⟩
          · obtain ⟨rfl, rfl⟩ := numberAt_unique hb hd
            exact hleave
          · obtain ⟨rfl, rfl⟩ := numberAt_unique hb hb'
            obtain ⟨rfl, rfl⟩ := numberAt_unique hc hd
            exact hagain
        · rw [sum, offset?, if_neg hagain]
          exact fun hall => hagain (hall _ _ (.again hop hb hc))
      · simp only [htake', error_bind]
        have hcut := not_numberAt hdecode'
        refine ⟨?_, fun stop distance haim => ?_⟩
        · rw [String.append_empty]
          refine .cutLoop hop fun _ _ c stop hb' hc => ?_
          obtain ⟨rfl, rfl⟩ := numberAt_unique hb hb'
          exact hcut c stop hc
        · rcases haim.of_loop with hd | ⟨_, _, hb', hd⟩
          · obtain ⟨rfl, rfl⟩ := numberAt_unique hb hd
            exact hleave
          · obtain ⟨rfl, rfl⟩ := numberAt_unique hb hb'
            exact absurd hd (hcut _ _)
    · rw [sum, offset?, if_neg hleave]
      exact fun hall => hleave (hall _ _ (.leave hop hb))
  · simp only [htake, error_bind]
    have hcut := not_numberAt hdecode
    refine ⟨?_, fun stop distance haim => ?_⟩
    · rw [String.append_empty]
      exact .cutLoop hop fun b mid _ _ hb => absurd hb (hcut b mid)
    · rcases haim.of_loop with hd | ⟨_, _, hb, -⟩
      · exact absurd hd (hcut _ _)
      · exact absurd hb (hcut _ _)

theorem lists_other (hbase : base + code.size < UInt64.size) (hpos : pos < code.size)
    (hop : opAt? code pos = some op) (hjump : op.isJump = false) (hloop : op ≠ .loop) :
    Lists code base pos (rowAt code base pos) := by
  have hfits : Fits code base pos := fun stop distance haim => by
    rcases haim.of_other hop with h | h
    · rw [hjump] at h
      cases h
    · exact absurd h hloop
  have honward := onward_operandsAt hbase (Nat.le_of_lt hpos) (Nat.succ_le_of_lt hpos) hjump hloop
  rw [rowAt_of_op hbase hpos hop]
  match hoperands : operandsAt code op base pos (pos + 1) with
  | .ok (text, next) =>
    rw [hoperands] at honward
    exact ⟨.other hop hjump hloop text, hfits, honward.1⟩
  | .error (.cutOff text) => exact ⟨.other hop hjump hloop text, hfits⟩
  | .error .fault =>
    rw [hoperands] at honward
    exact honward.elim

/-- Every line of the code is a row about the bytes at its position; the only check that fails is that of a target. -/
theorem lists_rowAt (hbase : base + code.size < UInt64.size) (hpos : pos < code.size) :
    Lists code base pos (rowAt code base pos) := by
  cases hop : opAt? code pos with
  | some op =>
    by_cases hjump : op.isJump = true
    · exact lists_jump hbase hpos hop hjump
    by_cases hloop : op = .loop
    · subst hloop
      exact lists_loop hbase hpos hop
    · exact lists_other hbase hpos hop (Bool.eq_false_iff.mpr hjump) hloop
  | none =>
    have hbyte : code[pos]? = some code[pos] := Array.getElem?_eq_getElem hpos
    have hunknown : Op.ofByte? code[pos] = none := by rwa [opAt?, hbyte] at hop
    simp only [rowAt, takeByte, hbyte, sum_eq (show pos + 1 < UInt64.size by omega), ok_bind,
      sum_eq (show base + pos < UInt64.size by omega), pure_eq, hunknown]
    refine ⟨.unknown hbyte hunknown, fun stop distance haim => ?_, Nat.lt_succ_self _⟩
    cases haim with
    | jump hop' | leave hop' | again hop' =>
      rw [hop] at hop'
      cases hop'

/-- The turns of the loop are enough for the bytes there are. -/
theorem rowsAt_eq (hbase : base + code.size < UInt64.size) {turns : Nat} (hturns : code.size ≤ pos + turns) :
    rowsAt code base pos turns = linesFrom code base pos turns := by
  induction turns generalizing pos with
  | zero =>
    rw [rowsAt, if_neg (by omega), linesFrom]
  | succ turns ih =>
    by_cases hpos : pos < code.size
    · rw [linesFrom_succ hpos, ← rowAt_eq hbase hpos, rowsAt, if_pos hpos]
      cases hrow : rowAt code base pos with
      | ok found =>
        obtain ⟨line, next⟩ := found
        have hlists := lists_rowAt hbase hpos
        rw [hrow] at hlists
        have hlt : pos < next := hlists.2.2
        simp only [ih (show code.size ≤ next + turns by omega)]
      | error stop => cases stop <;> rfl
    · rw [rowsAt, if_neg hpos, linesFrom, if_pos (by omega)]

/-- A listing that is at some position gets to another one. -/
inductive Reaches (code : Array UInt8) (base : Nat) : Nat → Nat → Prop
  | here (pos : Nat) : Reaches code base pos pos
  | there {pos next stop : Nat} {line : String} (hpos : pos < code.size) (hrow : rowAt code base pos = .ok (line, next))
    (hrest : Reaches code base next stop) : Reaches code base pos stop

/-- A listing that is at the end of the code stays there. -/
theorem Reaches.at_end {stop : Nat} (h : Reaches code base pos stop) (hpos : code.size ≤ pos) : code.size ≤ stop := by
  cases h with
  | here => exact hpos
  | there hlt => omega

/-- A listing that gets somewhere is there already, or gets there from behind the line. -/
theorem Reaches.after {line : String} {next stop : Nat} (h : Reaches code base pos stop)
    (hrow : rowAt code base pos = .ok (line, next)) : stop = pos ∨ Reaches code base next stop := by
  cases h with
  | here => exact .inl rfl
  | there _ hrow' hrest =>
    rw [hrow] at hrow'
    cases hrow'
    exact .inr hrest

/-- A listing that stops at a line gets no further. -/
theorem Reaches.at_error {e : Stop} {stop : Nat} (h : Reaches code base pos stop)
    (hrow : rowAt code base pos = .error e) : stop = pos := by
  cases h with
  | here => rfl
  | there _ hrow' =>
    rw [hrow] at hrow'
    cases hrow'

/-- The rows of code stand one behind the other, and there are none exactly if a target on the way is no offset. -/
theorem rows_of_code (hbase : base + code.size < UInt64.size) {turns : Nat} (hturns : code.size ≤ pos + turns) :
    match rowsAt code base pos turns with
    | none => ∃ stop, Reaches code base pos stop ∧ stop < code.size ∧ ¬ Fits code base stop
    | some rows => (∀ stop, Reaches code base pos stop → stop < code.size → Fits code base stop)
      ∧ ∃ places, List.Forall₂ (Row code base) places rows ∧ places.Pairwise (· < ·)
        ∧ ∀ place ∈ places, pos ≤ place ∧ place < code.size := by
  induction turns generalizing pos with
  | zero =>
    rw [rowsAt, if_neg (by omega)]
    exact ⟨fun stop hreach hstop => absurd (hreach.at_end (by omega)) (by omega), [], .nil, .nil, nofun⟩
  | succ turns ih =>
    rw [rowsAt]
    by_cases hpos : pos < code.size
    · have hlists := lists_rowAt hbase hpos
      rw [if_pos hpos]
      match hrow : rowAt code base pos with
      | .error .fault =>
        rw [hrow] at hlists
        exact ⟨pos, .here pos, hpos, hlists⟩
      | .error (.cutOff line) =>
        rw [hrow] at hlists
        refine ⟨fun stop hreach _ => hreach.at_error hrow ▸ hlists.2, [pos], .cons hlists.1 .nil,
          List.pairwise_singleton _ _, fun place hplace => ?_⟩
        rw [List.mem_singleton.mp hplace]
        exact ⟨Nat.le_refl _, hpos⟩
      | .ok (line, next) =>
        rw [hrow] at hlists
        obtain ⟨hline, hfits, hlt⟩ := hlists
        have hrest := ih (show code.size ≤ next + turns by omega)
        match hrows : rowsAt code base next turns with
        | none =>
          rw [hrows] at hrest
          obtain ⟨stop, hreach, hstop, hlost⟩ := hrest
          simp only [hrows, Option.map_none]
          exact ⟨stop, .there hpos hrow hreach, hstop, hlost⟩
        | some rows =>
          rw [hrows] at hrest
          obtain ⟨hall, places, hprints, hsorted, hwithin⟩ := hrest
          simp only [hrows, Option.map_some]
          refine ⟨fun stop hreach hstop => ?_, pos :: places, .cons hline hprints, ?_, ?_⟩
          · obtain rfl | hreach := hreach.after hrow
            · exact hfits
            · exact hall stop hreach hstop
          · refine List.pairwise_cons.mpr ⟨fun place hplace => ?_, hsorted⟩
            exact Nat.lt_of_lt_of_le hlt (hwithin place hplace).1
          · intro place hplace
            rcases List.mem_cons.mp hplace with rfl | hplace
            · exact ⟨Nat.le_refl _, hpos⟩
            · obtain ⟨hge, hbound⟩ := hwithin place hplace
              exact ⟨by omega, hbound⟩
    · rw [if_neg hpos]
      exact ⟨fun stop hreach hstop => absurd (hreach.at_end (by omega)) (by omega), [], .nil, .nil, nofun⟩

end Agreement

section Units

variable {unit : Array UInt8} {base : Nat} {header : Header}

/-- The code of a unit ends where its table of lines starts. -/
def codeOf (unit : Array UInt8) (header : Header) : Array UInt8 :=
  unit.extract 0 header.mapStart

theorem codeStart_le_mapStart (h : Header.read? unit = some header) : header.codeStart ≤ header.mapStart := by
  unfold Header.read? guard at h
  simp only [Option.bind_eq_bind, Option.bind_eq_some_iff] at h
  obtain ⟨_, _, total, _, codeStart, _, mapStart, _, _, hguard, hheader⟩ := h
  split at hguard
  · rename_i hgood
    cases hheader
    exact hgood.2.2.1
  · cases hguard

theorem size_codeOf (h : Header.read? unit = some header) : (codeOf unit header).size = header.mapStart := by
  have := (Header.bounds_of_read? h).2
  rw [codeOf, Array.size_extract]
  omega

theorem disassemble_of_header (h : Header.read? unit = some header) :
    disassemble unit base = (rowsAt (codeOf unit header) base header.codeStart (codeOf unit header).size).map
      (header.line unit base :: ·) := by
  obtain ⟨hcode, hmap⟩ := Header.bounds_of_read? h
  have horder := codeStart_le_mapStart h
  have hname : headerSize ≤ header.codeStart - 1 ∧ header.codeStart - 1 ≤ unit.size := by omega
  unfold disassemble
  simp only [h, if_pos (show 1 ≤ header.codeStart by omega), if_pos hmap, if_pos hname, Option.bind_eq_bind,
    Option.bind_some]
  rw [← codeOf]
  cases rowsAt (codeOf unit header) base header.codeStart (codeOf unit header).size <;> rfl

/-- A unit is listed as with every check: the one that can fail is that of a target. -/
theorem disassemble_eq (hbase : base + unit.size < UInt64.size) : disassemble unit base = lines? unit base := by
  cases h : Header.read? unit with
  | none =>
    unfold disassemble lines?
    rw [h]
  | some header =>
    have hmap := (Header.bounds_of_read? h).2
    have hsize := size_codeOf h
    rw [disassemble_of_header h, rowsAt_eq (by omega) (by omega)]
    unfold lines?
    simp only [h]
    rw [← codeOf]
    cases linesFrom (codeOf unit header) base header.codeStart (codeOf unit header).size <;> rfl

/-- Listings of any bytes. What is listed is what is listed with every check. There is no listing exactly if the
listing gets to a jump or loop whose target is no offset. Otherwise it is one line for a header that is malformed,
and else rows at places that go up from the start of the code to the table of lines, whose targets are the ends of
their operands plus their distances. -/
theorem disassembly_of_bytes (unit : Array UInt8) (base : Nat) (hbase : base + unit.size < UInt64.size) :
    disassemble unit base = lines? unit base
    ∧ (lines? unit base = none ↔ ∃ header pos stop distance, Header.read? unit = some header
        ∧ Reaches (codeOf unit header) base header.codeStart pos ∧ pos < header.mapStart
        ∧ Aim (codeOf unit header) pos stop distance ∧ UInt64.size ≤ base + stop + distance)
    ∧ ∀ lines, lines? unit base = some lines →
        (Header.read? unit = none ∧ lines = [toString base ++ "\t???  malformed header"])
        ∨ ∃ header rows places, Header.read? unit = some header ∧ lines = header.line unit base :: rows
          ∧ List.Forall₂ (Row (codeOf unit header) base) places rows ∧ places.Pairwise (· < ·)
          ∧ ∀ place ∈ places, header.codeStart ≤ place ∧ place < header.mapStart := by
  refine ⟨disassemble_eq hbase, ?_⟩
  cases hheader : Header.read? unit with
  | none =>
    have hlines : lines? unit base = some [toString base ++ "\t???  malformed header"] := by rw [lines?, hheader]
    rw [hlines]
    refine ⟨⟨nofun, ?_⟩, fun lines h => .inl ⟨rfl, (Option.some.inj h).symm⟩⟩
    rintro ⟨header, -, -, -, hread, -⟩
    cases hread
  | some header =>
    have hmap := (Header.bounds_of_read? hheader).2
    have hsize := size_codeOf hheader
    have hrows := @rows_of_code (codeOf unit header) base header.codeStart (by omega) (codeOf unit header).size
      (by omega)
    rw [hsize] at hrows
    rw [← disassemble_eq hbase, disassemble_of_header hheader, hsize]
    match hresult : rowsAt (codeOf unit header) base header.codeStart header.mapStart with
    | none =>
      rw [hresult] at hrows
      obtain ⟨pos, hreach, hpos, hlost⟩ := hrows
      simp only [Fits, not_forall, Nat.not_lt] at hlost
      obtain ⟨stop, distance, haim, hover⟩ := hlost
      exact ⟨⟨fun _ => ⟨header, pos, stop, distance, rfl, hreach, hpos, haim, hover⟩, fun _ => rfl⟩, nofun⟩
    | some rows =>
      rw [hresult] at hrows
      obtain ⟨hfits, places, hprints, hsorted, hwithin⟩ := hrows
      refine ⟨⟨nofun, ?_⟩, fun lines h => .inr ⟨header, rows, places, rfl, ?_, hprints, hsorted, hwithin⟩⟩
      · rintro ⟨_, pos, stop, distance, hread, hreach, hpos, haim, hover⟩
        cases hread
        exact absurd (hfits pos hreach hpos stop distance haim) (Nat.not_lt.mpr hover)
      · exact (Option.some.inj h).symm

/-- A unit whose code is a jump by one over an instruction to its exit. -/
def shortJump : Array UInt8 :=
  #[0x25, 21, 0, 0, 0, 15, 0, 0, 0, 19, 0, 0, 0, 116, 0, 5, 1, 0, 36, 1, 0]

theorem disassembly_of_bytes_shortJump :
    0 + shortJump.size < UInt64.size ∧ disassemble shortJump 0
      = some ["0\tBCODE_HDR  [t] size:21 code:15 map:19", "15\tJMP  18", "17\tNOP", "18\tEXIT"] :=
  ⟨by decide, (disassembly_of_bytes shortJump 0 (by decide)).1.trans (by decide +kernel)⟩

/-- A unit whose code is a jump by the largest distance that can be written, and an exit. -/
def farJump : Array UInt8 :=
  #[0x25, 28, 0, 0, 0, 15, 0, 0, 0, 27, 0, 0, 0, 116, 0, 5, 0xFF, 0xFF, 0xFF, 0xFF, 0xFF, 0xFF, 0xFF, 0xFF, 0xFF, 1,
    36, 0]

/-- The target of the jump is past the last offset: the unit cannot be listed. -/
theorem farJump_unlisted :
    0 + farJump.size < UInt64.size ∧ disassemble farJump 0 = none ∧ ofUnit? farJump = none := by
  decide +kernel

end Units

end ScriptEngine.Code.Listing
