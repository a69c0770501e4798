import ScriptEngine.Code.Instr
import ScriptEngine.Proofs.Varint
/-!
Reading instructions back.

`Spells code pos bytes` says that certain bytes stand at a position of the code, and it splits along the
bytes. Every instruction whose numbers fit 64 bits is read back from where its bytes stand
(`read_encode`). A jump and a loop are read back whatever width their distances were written in
(`read_jump`, `read_loop`), which is what leaves room for a distance to be written late.
-/

namespace ScriptEngine.Code

/-- From `pos` on, `bytes` stand in the code. -/
def Spells (code : Array UInt8) (pos : Nat) (bytes : List UInt8) : Prop :=
  bytes <+: code.toList.drop pos

theorem spells_append {code : Array UInt8} {pos : Nat} {xs ys : List UInt8} :
    Spells code pos (xs ++ ys) ↔ Spells code pos xs ∧ Spells code (pos + xs.length) ys := by
  unfold Spells
  constructor
  · rintro ⟨rest, hrest⟩
    refine ⟨⟨ys ++ rest, by rw [← hrest, List.append_assoc]⟩, rest, ?_⟩
    rw [← List.drop_drop, ← hrest, List.append_assoc, List.drop_left]
  · rintro ⟨⟨rest, hrest⟩, after, hafter⟩
    rw [← List.drop_drop, ← hrest, List.drop_left] at hafter
    exact ⟨after, by rw [List.append_assoc, hafter, hrest]⟩

theorem spells_cons {code : Array UInt8} {pos : Nat} {b : UInt8} {bytes : List UInt8} :
    Spells code pos (b :: bytes) ↔ Spells code pos [b] ∧ Spells code (pos + 1) bytes :=
  @spells_append code pos [b] bytes

/-- All bytes of a list stand at its start. -/
theorem spells_toArray (bytes : List UInt8) : Spells bytes.toArray 0 bytes :=
  List.prefix_refl bytes

namespace Spells

variable {code : Array UInt8} {pos : Nat}

theorem getElem? {b : UInt8} {rest : List UInt8} (h : Spells code pos (b :: rest)) :
    code[pos]? = some b := by
  obtain ⟨after, hafter⟩ := h
  have hhead : (code.toList.drop pos)[0]? = some b := by
    rw [← hafter]
    rfl
  rwa [List.getElem?_drop, Nat.add_zero, Array.getElem?_toList] at hhead

theorem length_le {bytes : List UInt8} (h : Spells code pos bytes) (hpos : pos ≤ code.size) :
    pos + bytes.length ≤ code.size := by
  have hlength := List.IsPrefix.length_le h
  have hcode : code.toList.length = code.size := Array.length_toList
  rw [List.length_drop] at hlength
  omega

theorem take? {bytes : List UInt8} (h : Spells code pos bytes) (hne : bytes ≠ []) :
    Decoded.take? code pos bytes.length = some bytes := by
  have hpos : pos ≤ code.size := by
    by_contra hpos
    have hempty : code.toList.drop pos = [] := List.drop_of_length_le (by
      rw [Array.length_toList]
      omega)
    rw [Spells, hempty] at h
    exact hne (List.prefix_nil.mp h)
  have hbytes : (code.extract pos (pos + bytes.length)).toList = bytes := by
    rw [Array.toList_extract, List.extract_eq_take_drop, Nat.add_sub_cancel_left]
    exact (List.prefix_iff_eq_take.mp h).symm
  rw [Decoded.take?, if_pos (h.length_le hpos), hbytes]

theorem decodeAt {v width : Nat} (h : Spells code pos (Varint.encodePadded v width))
    (hlength : Varint.length v ≤ width) (hwidth : width ≤ Varint.maxLength) (hsize : v < UInt64.size) :
    Varint.decodeAt (fun i : Nat => code[i]?) pos = some (v, width) := by
  obtain ⟨rest, hrest⟩ := h
  have hlist : (fun i : Nat => code[i]?) = fun i => code.toList[i]? := by
    funext i
    rw [Array.getElem?_toList]
  rw [hlist, Varint.decodeAt_eq_decode, ← hrest]
  exact Varint.decode_encodePadded hlength hwidth hsize rest

/-- A number operand is read in the width it was written in. -/
theorem withNumber {v width : Nat} (h : Spells code pos (Varint.encodePadded v width))
    (hlength : Varint.length v ≤ width) (hwidth : width ≤ Varint.maxLength) (hsize : v < UInt64.size)
    (op : Op) (k : Nat → Nat → Decoded) :
    Decoded.withNumber code op pos k = k v (pos + width) := by
  simp only [Decoded.withNumber, h.decodeAt hlength hwidth hsize]

theorem withNumber_encode {v : Nat} (h : Spells code pos (Varint.encode v)) (hsize : v < UInt64.size)
    (op : Op) (k : Nat → Nat → Decoded) :
    Decoded.withNumber code op pos k = k v (pos + Varint.length v) :=
  withNumber h (Nat.le_refl _) (Varint.length_le_maxLength hsize) hsize op k

/-- A text operand is read with its length in front. -/
theorem withText {text : List UInt8}
    (h : Spells code pos (Varint.encode text.length ++ text)) (hpos : pos ≤ code.size)
    (hsize : text.length < UInt64.size) (op : Op) (k : List UInt8 → Nat → Decoded) :
    Decoded.withText code op pos k = k text (pos + Varint.length text.length + text.length) := by
  obtain ⟨hnumber, htext⟩ := spells_append.mp h
  have hstart : pos + Varint.length text.length ≤ code.size := by
    have := hnumber.length_le hpos
    rwa [Varint.length_encode] at this
  rw [Varint.length_encode] at htext
  have htake : Decoded.take? code (pos + Varint.length text.length) text.length = some text := by
    by_cases hne : text = []
    · subst hne
      simpa [Decoded.take?] using hstart
    · exact htext.take? hne
  simp only [Decoded.withText, hnumber.withNumber_encode hsize, htake]

theorem pos_lt {b : UInt8} {rest : List UInt8} (h : Spells code pos (b :: rest)) : pos < code.size := by
  by_contra hpos
  have hb := h.getElem?
  rw [Array.getElem?_eq_none (by omega)] at hb
  cases hb

/-- Behind an operation code, its operands are read. -/
theorem read {op : Op} {rest : List UInt8} (h : Spells code pos (op.toByte :: rest)) :
    Decoded.read code pos = Decoded.operands code op (pos + 1) := by
  simp only [Decoded.read, h.getElem?, Op.ofByte?_toByte]

end Spells

namespace Instr

/-- The numbers of an instruction fit 64 bits. -/
def Fits : Instr → Prop
  | jmp d | jmpTrue d | jmpNeutralTrue d | jmpFalse d | jmpNeutralFalse d => d < UInt64.size
  | loop b c => b < UInt64.size ∧ c < UInt64.size
  | pushStr text => text.length < UInt64.size
  | pushInt n => n < UInt64.size
  | pushFunc back => back < UInt64.size
  | setArg index name => index < UInt64.size ∧ name.length < UInt64.size
  | _ => True

/-- The operation code comes first. -/
theorem encode_eq_cons (i : Instr) : ∃ rest, i.encode = i.op.toByte :: rest := by
  cases i <;> exact ⟨_, rfl⟩

theorem length_encode_pos (i : Instr) : 0 < i.encode.length := by
  obtain ⟨rest, hrest⟩ := i.encode_eq_cons
  rw [hrest, List.length_cons]
  omega

/-- A word is spelled by its eight bytes. -/
theorem wordOf_wordBytes (bits : UInt64) : wordOf (wordBytes bits) = bits.toNat := by
  have hlt : bits.toNat < 2 ^ 64 := bits.toNat_lt
  have hbyte : ∀ k, (UInt8.ofNat (bits.toNat >>> k)).toNat = bits.toNat / 2 ^ k % 256 := by
    intro k
    rw [UInt8.toNat_ofNat', Nat.shiftRight_eq_div_pow]
  have hrange : List.range 8 = [0, 1, 2, 3, 4, 5, 6, 7] := rfl
  simp only [wordOf, wordBytes, hrange, List.map_cons, List.map_nil, List.foldr_cons, List.foldr_nil,
    hbyte, Nat.reduceMul, Nat.reducePow]
  omega

@[simp] theorem length_wordBytes (bits : UInt64) : (wordBytes bits).length = 8 := by
  simp [wordBytes]

end Instr

open Spells

variable {code : Array UInt8} {pos : Nat}

/-- An instruction is read back from where its bytes stand. -/
theorem read_encode {i : Instr} (hfits : i.Fits) (h : Spells code pos i.encode) :
    ∃ firstEnd, Decoded.read code pos = .instr i firstEnd (pos + i.encode.length) := by
  have hop : Decoded.read code pos = Decoded.operands code i.op (pos + 1) := by
    obtain ⟨rest, hrest⟩ := i.encode_eq_cons
    rw [hrest] at h
    exact h.read
  have hlt : pos + 1 ≤ code.size := by
    obtain ⟨rest, hrest⟩ := i.encode_eq_cons
    rw [hrest] at h
    exact h.pos_lt
  rw [hop]
  have htail : ∀ rest : List UInt8, i.encode = i.op.toByte :: rest → Spells code (pos + 1) rest := by
    intro rest hrest
    rw [hrest] at h
    exact (spells_cons.mp h).2
  cases i
  case jmp d | jmpTrue d | jmpNeutralTrue d | jmpFalse d | jmpNeutralFalse d | pushInt d | pushFunc d =>
    have hnumber := htail (Varint.encode d) (by simp [Instr.encode, Instr.pieces])
    refine ⟨pos + 1 + Varint.length d, ?_⟩
    simp only [Instr.op, Decoded.operands, hnumber.withNumber_encode hfits]
    simp [Instr.encode, Instr.pieces]
    omega
  case loop b c =>
    have hnumbers := htail (Varint.encode b ++ Varint.encode c)
      (by simp [Instr.encode, Instr.pieces])
    obtain ⟨hfirst, hsecond⟩ := spells_append.mp hnumbers
    rw [Varint.length_encode] at hsecond
    refine ⟨pos + 1 + Varint.length b, ?_⟩
    simp only [Instr.op, Decoded.operands, hfirst.withNumber_encode hfits.1,
      hsecond.withNumber_encode hfits.2]
    simp [Instr.encode, Instr.pieces]
    omega
  case pushStr text =>
    have htext := htail (Varint.encode text.length ++ text)
      (by simp [Instr.encode, Instr.pieces])
    refine ⟨pos + 1 + Varint.length text.length + text.length, ?_⟩
    simp only [Instr.op, Decoded.operands, htext.withText hlt hfits]
    simp [Instr.encode, Instr.pieces]
    omega
  case setArg index name =>
    have hargs := htail (Varint.encode index ++ (Varint.encode name.length ++ name))
      (by simp [Instr.encode, Instr.pieces])
    obtain ⟨hindex, hname⟩ := spells_append.mp hargs
    rw [Varint.length_encode] at hname
    have hafter : pos + 1 + Varint.length index ≤ code.size := by
      have := hindex.length_le hlt
      rwa [Varint.length_encode] at this
    refine ⟨pos + 1 + Varint.length index, ?_⟩
    simp only [Instr.op, Decoded.operands, hindex.withNumber_encode hfits.1,
      hname.withText hafter hfits.2]
    simp [Instr.encode, Instr.pieces]
    omega
  case pushDbl bits =>
    have hword := htail (Instr.wordBytes bits) (by simp [Instr.encode, Instr.pieces])
    have htake := hword.take? (by simp [Instr.wordBytes])
    rw [Instr.length_wordBytes] at htake
    refine ⟨pos + 1 + 8, ?_⟩
    simp only [Instr.op, Decoded.operands, htake, Instr.wordOf_wordBytes, UInt64.ofNat_toNat]
    simp [Instr.encode, Instr.pieces]
  case expr o =>
    have hbyte := (htail [o.toByte] (by simp [Instr.encode, Instr.pieces])).getElem?
    refine ⟨pos + 1 + 1, ?_⟩
    simp only [Instr.op, Decoded.operands, hbyte, Operator.ofByte?_toByte]
    rfl
  all_goals exact ⟨pos + 1, rfl⟩

/-- A jump is read back in whatever width its distance was written. -/
theorem read_number {op : Op} {make : Nat → Instr} {d width : Nat}
    (hmake : ∀ pos, Decoded.operands code op pos
      = Decoded.withNumber code op pos fun v next => .instr (make v) next next)
    (hlength : Varint.length d ≤ width) (hwidth : width ≤ Varint.maxLength) (hsize : d < UInt64.size)
    (h : Spells code pos (op.toByte :: Varint.encodePadded d width)) :
    Decoded.read code pos = .instr (make d) (pos + 1 + width) (pos + 1 + width) := by
  rw [h.read, hmake, (spells_cons.mp h).2.withNumber hlength hwidth hsize]

/-- A loop is read back in whatever widths its distances were written. -/
theorem read_loop {b c width width' : Nat} (hlength : Varint.length b ≤ width)
    (hwidth : width ≤ Varint.maxLength) (hsize : b < UInt64.size) (hlength' : Varint.length c ≤ width')
    (hwidth' : width' ≤ Varint.maxLength) (hsize' : c < UInt64.size)
    (h : Spells code pos
      (Op.loop.toByte :: Varint.encodePadded b width ++ Varint.encodePadded c width')) :
    Decoded.read code pos = .instr (.loop b c) (pos + 1 + width) (pos + 1 + width + width') := by
  obtain ⟨hfirst, hsecond⟩ := spells_append.mp (spells_cons.mp h).2
  rw [Varint.length_encodePadded] at hsecond
  rw [h.read, Decoded.operands, hfirst.withNumber hlength hwidth hsize,
    hsecond.withNumber hlength' hwidth' hsize']

end ScriptEngine.Code
