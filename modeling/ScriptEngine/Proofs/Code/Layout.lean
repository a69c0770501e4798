import ScriptEngine.Code.Emitter
import ScriptEngine.Proofs.Code.Encoding
/-!
Instructions with targets that are instructions.

An `Item` is an instruction that names its target by how many items lie between, so it says nothing of
bytes. A `Chunk` is an item with its line and the bytes that were written for it. `Laid` says that the
bytes of a list of chunks are right: every distance is the number of bytes between the operand and the
target, in whatever width it was written.

A laid list stays laid in a longer one (`laid_append`), so code is put together piece by piece. The main
statement is `Laid.read`: where the bytes of a laid list stand, reading from one position to the next
gives its items, and the targets are positions of the items that they name (`Item.ReadAs`).
-/

namespace ScriptEngine.Code

/-- Forward jumps. -/
inductive Jump where
  | always
  /-- Takes the condition; leaves a value if it jumps. -/
  | onFalse
  /-- Keeps the condition. -/
  | onTrueKept
  | onFalseKept
  deriving DecidableEq, Repr

namespace Jump

/-- The operation code. -/
def op : Jump → Op
  | always => .jmp
  | onFalse => .jmpFalse
  | onTrueKept => .jmpNeutralTrue
  | onFalseKept => .jmpNeutralFalse

/-- The jump over a distance. -/
def instr : Jump → Nat → Instr
  | always => .jmp
  | onFalse => .jmpFalse
  | onTrueKept => .jmpNeutralTrue
  | onFalseKept => .jmpNeutralFalse

theorem op_instr (j : Jump) (d : Nat) : (j.instr d).op = j.op := by
  cases j <;> rfl

theorem operands_op (j : Jump) (code : Array UInt8) (pos : Nat) :
    Decoded.operands code j.op pos
      = Decoded.withNumber code j.op pos fun v next => .instr (j.instr v) next next := by
  cases j <;> rfl

end Jump

/-- Whether an instruction is complete without the place of another one, and its number fits. -/
def Instr.isPlain : Instr → Bool
  | jmp _ | jmpTrue _ | jmpNeutralTrue _ | jmpFalse _ | jmpNeutralFalse _ | loop _ _ | pushFunc _ => false
  | pushInt n => n < UInt64.size
  | _ => true

/-- An instruction whose target, if it has one, is another instruction of the same code. -/
inductive Item where
  | plain (i : Instr) (complete : i.isPlain = true := by rfl)
  /-- To the item that many places behind the next one. -/
  | jump (j : Jump) (ahead : Nat)
  /-- The break target and the continue target, counted like that of a jump. -/
  | loop (exit again : Nat)
  /-- A function that starts that many items before this one. -/
  | func (behind : Nat)

/-- The operation code. -/
def Item.op : Item → Op
  | plain i _ => i.op
  | jump j _ => j.op
  | loop _ _ => .loop
  | func _ => .pushFunc

/-- An item as it was written. -/
structure Chunk where
  item : Item
  line : Nat
  bytes : List UInt8

/-- The bytes of chunks. -/
def bytesOf (cs : List Chunk) : List UInt8 :=
  cs.flatMap Chunk.bytes

/-- How many bytes chunks take. -/
def sizeOf (cs : List Chunk) : Nat :=
  (bytesOf cs).length

@[simp] theorem bytesOf_nil : bytesOf [] = [] := rfl

@[simp] theorem bytesOf_cons (c : Chunk) (cs : List Chunk) :
    bytesOf (c :: cs) = c.bytes ++ bytesOf cs := rfl

@[simp] theorem bytesOf_append (cs ds : List Chunk) :
    bytesOf (cs ++ ds) = bytesOf cs ++ bytesOf ds := by
  simp [bytesOf]

@[simp] theorem sizeOf_nil : sizeOf [] = 0 := rfl

@[simp] theorem sizeOf_cons (c : Chunk) (cs : List Chunk) :
    sizeOf (c :: cs) = c.bytes.length + sizeOf cs := by
  simp [sizeOf]

@[simp] theorem sizeOf_append (cs ds : List Chunk) : sizeOf (cs ++ ds) = sizeOf cs + sizeOf ds := by
  simp [sizeOf]

/-- A distance in a width, or in more bytes if it does not fit. -/
def operand (width distance : Nat) : List UInt8 :=
  Varint.encodePadded distance (max (Varint.length distance) width)

@[simp] theorem length_operand (width distance : Nat) :
    (operand width distance).length = max (Varint.length distance) width := by
  simp [operand]

theorem width_le_length_operand (width distance : Nat) : width ≤ (operand width distance).length := by
  rw [length_operand]
  exact Nat.le_max_right _ _

theorem operand_zero (distance : Nat) : operand 0 distance = Varint.encode distance := by
  simp [operand, Varint.encode]

/-- The number of a parameter is no more than `n`. -/
def Instr.Counts (n : Nat) : Instr → Prop
  | setArg index _ => index ≤ n
  | _ => True

/-- The bytes of a chunk between others are right. -/
def Chunk.Fits (before : List Chunk) (c : Chunk) (after : List Chunk) : Prop :=
  match c.item with
  | .plain i _ => c.bytes = i.encode ∧ i.Counts before.length
  | .jump j ahead =>
    ahead ≤ after.length ∧ ∃ width ≤ Emitter.maxWidth,
      c.bytes = j.op.toByte :: operand width (sizeOf (after.take ahead))
  | .loop exit again =>
    exit ≤ after.length ∧ again ≤ after.length ∧ ∃ width ≤ Emitter.maxWidth, ∃ width' ≤ Emitter.maxWidth,
      c.bytes = Op.loop.toByte
        :: (operand width ((operand width' (sizeOf (after.take again))).length + sizeOf (after.take exit))
          ++ operand width' (sizeOf (after.take again)))
  | .func behind =>
    behind ≤ before.length ∧
      c.bytes = (Instr.pushFunc (sizeOf (before.drop (before.length - behind)))).encode

/-- The bytes of chunks that come behind others are right. -/
def LaidBehind (before : List Chunk) : List Chunk → Prop
  | [] => True
  | c :: cs => c.Fits before cs ∧ LaidBehind (before ++ [c]) cs

/-- The bytes of chunks are right. -/
def Laid (cs : List Chunk) : Prop :=
  LaidBehind [] cs

/-- What a position reads as, for the item at index `i` of code whose items stand at `place`. -/
def Item.ReadAs (place : Nat → Nat) (i : Nat) : Item → Decoded → Prop
  | .plain ins _, d => ∃ firstEnd, d = .instr ins firstEnd (place (i + 1))
  | .jump j ahead, d =>
    ∃ distance, d = .instr (j.instr distance) (place (i + 1)) (place (i + 1))
      ∧ place (i + 1) + distance = place (i + 1 + ahead)
  | .loop exit again, d =>
    ∃ b c firstEnd, d = .instr (.loop b c) firstEnd (place (i + 1))
      ∧ firstEnd + b = place (i + 1 + exit) ∧ place (i + 1) + c = place (i + 1 + again)
  | .func behind, d =>
    ∃ back firstEnd, d = .instr (.pushFunc back) firstEnd (place (i + 1))
      ∧ place (i - behind) + back = place i

/-- An item is read up to the place of the next one. -/
theorem Item.ReadAs.exists_instr {place : Nat → Nat} {i : Nat} {item : Item} {d : Decoded}
    (h : item.ReadAs place i d) : ∃ ins firstEnd, d = .instr ins firstEnd (place (i + 1)) := by
  cases item with
  | plain ins _ =>
    obtain ⟨firstEnd, hread⟩ := h
    exact ⟨_, _, hread⟩
  | jump j ahead =>
    obtain ⟨_, hread, -⟩ := h
    exact ⟨_, _, hread⟩
  | loop exit again =>
    obtain ⟨_, _, _, hread, -⟩ := h
    exact ⟨_, _, hread⟩
  | func behind =>
    obtain ⟨_, _, hread, -⟩ := h
    exact ⟨_, _, hread⟩

/-! ## Chunks among others -/

theorem Instr.Counts.mono {i : Instr} {n n' : Nat} (h : i.Counts n) (hle : n ≤ n') : i.Counts n' := by
  cases i
  case setArg => exact Nat.le_trans h hle
  all_goals trivial

/-- A chunk that is right between some chunks is right between more of them. -/
theorem Chunk.Fits.between {before after : List Chunk} {c : Chunk} (h : c.Fits before after)
    (first last : List Chunk) : c.Fits (first ++ before) (after ++ last) := by
  unfold Chunk.Fits at *
  split at h
  case h_1 =>
    refine ⟨h.1, h.2.mono ?_⟩
    rw [List.length_append]
    omega
  case h_2 =>
    obtain ⟨hahead, hbytes⟩ := h
    rw [List.length_append, List.take_append_of_le_length hahead]
    exact ⟨by omega, hbytes⟩
  case h_3 =>
    obtain ⟨hexit, hagain, hbytes⟩ := h
    rw [List.length_append, List.take_append_of_le_length hexit, List.take_append_of_le_length hagain]
    exact ⟨by omega, by omega, hbytes⟩
  case h_4 behind _ =>
    obtain ⟨hbehind, hbytes⟩ := h
    have hlength : first.length + before.length - behind = first.length + (before.length - behind) := by
      omega
    rw [List.length_append, hlength, List.drop_append]
    simp only [Nat.add_sub_cancel_left, List.drop_of_length_le (Nat.le_add_right _ _),
      List.nil_append]
    exact ⟨by omega, hbytes⟩

theorem LaidBehind.behind {before cs : List Chunk} (h : LaidBehind before cs) (first : List Chunk) :
    LaidBehind (first ++ before) cs := by
  induction cs generalizing before with
  | nil => trivial
  | cons c cs ih =>
    have hfits := h.1.between first []
    rw [List.append_nil] at hfits
    refine ⟨hfits, ?_⟩
    rw [List.append_assoc]
    exact ih h.2

theorem LaidBehind.append {before cs ds : List Chunk} (h : LaidBehind before cs)
    (h' : LaidBehind (before ++ cs) ds) : LaidBehind before (cs ++ ds) := by
  induction cs generalizing before with
  | nil => simpa using h'
  | cons c cs ih =>
    have hfits := h.1.between [] ds
    rw [List.nil_append] at hfits
    refine ⟨hfits, ih h.2 ?_⟩
    simpa [List.append_assoc] using h'

/-- Code is put together of pieces that are right each for itself. -/
theorem laid_append {cs ds : List Chunk} (h : Laid cs) (h' : Laid ds) : Laid (cs ++ ds) := by
  refine LaidBehind.append h ?_
  have := LaidBehind.behind h' cs
  rwa [List.append_nil] at this

theorem LaidBehind.fits {before cs : List Chunk} (h : LaidBehind before cs) {i : Nat} {c : Chunk}
    (hc : cs[i]? = some c) : c.Fits (before ++ cs.take i) (cs.drop (i + 1)) := by
  induction cs generalizing before i with
  | nil => simp at hc
  | cons d cs ih =>
    cases i with
    | zero =>
      obtain rfl : d = c := by simpa using hc
      simpa using h.1
    | succ i =>
      have := ih h.2 (i := i) (by simpa using hc)
      simpa [List.append_assoc] using this

/-- Every chunk of a laid list fits between those before it and those behind it. -/
theorem Laid.fits {cs : List Chunk} (h : Laid cs) {i : Nat} {c : Chunk} (hc : cs[i]? = some c) :
    c.Fits (cs.take i) (cs.drop (i + 1)) :=
  LaidBehind.fits h hc

/-! ## Positions -/

/-- Where the chunk at an index starts. -/
def placeIn (cs : List Chunk) (i : Nat) : Nat :=
  sizeOf (cs.take i)

@[simp] theorem placeIn_zero (cs : List Chunk) : placeIn cs 0 = 0 := rfl

theorem placeIn_length (cs : List Chunk) : placeIn cs cs.length = sizeOf cs := by
  simp [placeIn]

theorem placeIn_succ {cs : List Chunk} {i : Nat} {c : Chunk} (hc : cs[i]? = some c) :
    placeIn cs (i + 1) = placeIn cs i + c.bytes.length := by
  have htake : cs.take (i + 1) = cs.take i ++ [c] := by
    rw [List.take_add_one, hc]
    rfl
  simp [placeIn, htake]

theorem placeIn_add (cs : List Chunk) (i n : Nat) :
    placeIn cs (i + n) = placeIn cs i + sizeOf ((cs.drop i).take n) := by
  rw [placeIn, List.take_add, sizeOf_append]
  rfl

theorem placeIn_le_sizeOf (cs : List Chunk) (i : Nat) : placeIn cs i ≤ sizeOf cs := by
  have htotal : sizeOf cs = sizeOf (cs.take i) + sizeOf (cs.drop i) := by
    rw [← sizeOf_append, List.take_append_drop]
  unfold placeIn
  omega

/-- The bytes of a chunk stand at its place. -/
theorem spells_chunk {code : Array UInt8} {start : Nat} {cs : List Chunk} {i : Nat} {c : Chunk}
    (hcode : Spells code start (bytesOf cs)) (hc : cs[i]? = some c) :
    Spells code (start + placeIn cs i) c.bytes := by
  have hsplit : cs = cs.take i ++ c :: cs.drop (i + 1) := by
    obtain ⟨hlt, hget⟩ := List.getElem?_eq_some_iff.mp hc
    rw [← hget, ← List.drop_eq_getElem_cons hlt, List.take_append_drop]
  rw [hsplit, bytesOf_append, bytesOf_cons] at hcode
  exact (spells_append.mp (spells_append.mp hcode).2).1

/-! ## Reading chunks -/

theorem length_operand_le {width d : Nat} (hwidth : width ≤ Emitter.maxWidth) (hsize : d < UInt64.size) :
    max (Varint.length d) width ≤ Varint.maxLength := by
  have hlength := Varint.length_le_maxLength hsize
  have hmax : Emitter.maxWidth ≤ Varint.maxLength := by decide
  omega

/-- A plain instruction whose texts and parameter number are no longer than the code fits. -/
theorem Instr.fits_of_isPlain {i : Instr} {n : Nat} (hplain : i.isPlain = true) (hcounts : i.Counts n)
    (hn : n < UInt64.size) (hlength : i.encode.length < UInt64.size) : i.Fits := by
  cases i
  case pushInt n =>
    have hsmall : n < UInt64.size := of_decide_eq_true hplain
    exact hsmall
  case pushStr text =>
    have hle : text.length ≤ (Instr.pushStr text).encode.length := by
      simp [Instr.encode, Instr.pieces]
      omega
    exact Nat.lt_of_le_of_lt hle hlength
  case setArg index name =>
    have hle : name.length ≤ (Instr.setArg index name).encode.length := by
      simp [Instr.encode, Instr.pieces]
      omega
    exact ⟨Nat.lt_of_le_of_lt hcounts hn, Nat.lt_of_le_of_lt hle hlength⟩
  case jmp | jmpTrue | jmpNeutralTrue | jmpFalse | jmpNeutralFalse | loop | pushFunc => cases hplain
  all_goals trivial

theorem Chunk.Fits.length_pos {before after : List Chunk} {c : Chunk} (h : c.Fits before after) :
    0 < c.bytes.length := by
  unfold Chunk.Fits at h
  split at h
  case h_1 => rw [h.1]; exact Instr.length_encode_pos _
  case h_2 => obtain ⟨_, _, _, hbytes⟩ := h; simp [hbytes]
  case h_3 => obtain ⟨_, _, _, _, _, _, hbytes⟩ := h; simp [hbytes]
  case h_4 => rw [h.2]; exact Instr.length_encode_pos _

/-- An item takes at least a byte. -/
theorem Laid.place_lt {cs : List Chunk} (h : Laid cs) {i : Nat} (hi : i < cs.length) :
    placeIn cs i < placeIn cs (i + 1) := by
  have hc := List.getElem?_eq_getElem hi
  rw [placeIn_succ hc]
  have := (h.fits hc).length_pos
  omega

theorem Laid.length_le_sizeOf {cs : List Chunk} (h : Laid cs) {i : Nat} (hi : i ≤ cs.length) :
    i ≤ placeIn cs i := by
  induction i with
  | zero => exact Nat.zero_le _
  | succ i ih =>
    have := h.place_lt (i := i) (by omega)
    have := ih (by omega)
    omega

/-- Where the bytes of a laid list stand, its items are read one behind the other. -/
theorem Laid.read {cs : List Chunk} (h : Laid cs) {code : Array UInt8} {start : Nat}
    (hcode : Spells code start (bytesOf cs)) (hsize : sizeOf cs < UInt64.size) {i : Nat} {c : Chunk}
    (hc : cs[i]? = some c) :
    c.item.ReadAs (fun k => start + placeIn cs k) i (Decoded.read code (start + placeIn cs i)) := by
  have hfits := h.fits hc
  have hbytes := spells_chunk hcode hc
  have hnext := placeIn_succ hc
  have hlt : i < cs.length := (List.getElem?_eq_some_iff.mp hc).1
  have hdistance : ∀ n, sizeOf ((cs.drop (i + 1)).take n) < UInt64.size := by
    intro n
    have := placeIn_add cs (i + 1) n
    have := placeIn_le_sizeOf cs (i + 1 + n)
    omega
  have hend : placeIn cs i + c.bytes.length ≤ sizeOf cs := by
    rw [← hnext]
    exact placeIn_le_sizeOf cs (i + 1)
  unfold Chunk.Fits at hfits
  split at hfits
  case h_1 ins hplain hitem =>
    obtain ⟨hencode, hcounts⟩ := hfits
    rw [hencode] at hbytes hend hnext
    have hbefore : (cs.take i).length < UInt64.size := by
      have := h.length_le_sizeOf (Nat.le_of_lt hlt)
      have := placeIn_le_sizeOf cs i
      rw [List.length_take]
      omega
    obtain ⟨firstEnd, hread⟩ := read_encode
      (Instr.fits_of_isPlain hplain hcounts hbefore (by omega)) hbytes
    rw [hitem]
    refine ⟨firstEnd, ?_⟩
    dsimp only
    rw [hread, hnext, Nat.add_assoc]
  case h_2 j ahead hitem =>
    obtain ⟨-, width, hwidth, hencode⟩ := hfits
    rw [hencode] at hbytes hnext
    rw [List.length_cons, length_operand] at hnext
    have hread := read_number (j.operands_op code) (Nat.le_max_left _ _)
      (length_operand_le hwidth (hdistance ahead)) (hdistance ahead) hbytes
    rw [hitem]
    refine ⟨sizeOf ((cs.drop (i + 1)).take ahead), ?_, ?_⟩ <;> dsimp only
    · rw [hread, hnext]
      simp only [Nat.add_assoc, Nat.add_comm 1]
    · rw [placeIn_add cs (i + 1) ahead, Nat.add_assoc]
  case h_3 exit again hitem =>
    obtain ⟨-, -, width, hwidth, width', hwidth', hencode⟩ := hfits
    have htoExit := placeIn_add cs (i + 1) exit
    have htoAgain := placeIn_add cs (i + 1) again
    have hexitEnd := placeIn_le_sizeOf cs (i + 1 + exit)
    have hagainSize := hdistance again
    generalize sizeOf ((cs.drop (i + 1)).take again) = c at *
    generalize sizeOf ((cs.drop (i + 1)).take exit) = b at *
    rw [hencode] at hbytes hnext
    simp only [List.length_cons, List.length_append, length_operand] at hnext
    have hexitSize : (operand width' c).length + b < UInt64.size := by
      rw [length_operand]
      omega
    have hread := read_loop (Nat.le_max_left _ _) (length_operand_le hwidth hexitSize) hexitSize
      (Nat.le_max_left _ _) (length_operand_le hwidth' hagainSize) hagainSize hbytes
    rw [length_operand] at hread
    rw [hitem]
    refine ⟨_, _, _, hread.trans (congrArg _ ?_), ?_, ?_⟩
    · show _ = start + placeIn cs (i + 1)
      omega
    · show _ = start + placeIn cs (i + 1 + exit)
      omega
    · show start + placeIn cs (i + 1) + c = start + placeIn cs (i + 1 + again)
      omega
  case h_4 behind hitem =>
    obtain ⟨hbehind, hencode⟩ := hfits
    have hi : (cs.take i).length = i := by
      rw [List.length_take]
      omega
    rw [hi] at hbehind hencode
    rw [hencode] at hbytes hnext
    have hback : placeIn cs (i - behind) + sizeOf ((cs.take i).drop (i - behind)) = placeIn cs i := by
      have hsplit := placeIn_add cs (i - behind) behind
      rw [Nat.sub_add_cancel hbehind] at hsplit
      rw [hsplit, List.drop_take, Nat.sub_sub_self hbehind]
    have hsmall : sizeOf ((cs.take i).drop (i - behind)) < UInt64.size := by
      have := placeIn_le_sizeOf cs i
      omega
    obtain ⟨firstEnd, hread⟩ := read_encode (i := .pushFunc _) hsmall hbytes
    rw [hitem]
    refine ⟨_, firstEnd, hread.trans (congrArg _ ?_), ?_⟩
    · show _ = start + placeIn cs (i + 1)
      rw [hnext, Nat.add_assoc]
    · show start + placeIn cs (i - behind) + _ = start + placeIn cs i
      rw [Nat.add_assoc, hback]

/-! ## Places -/

/-- The targets of the item at an index are among `n` items and the place behind them. -/
def Item.Within (n i : Nat) : Item → Prop
  | .plain _ _ => True
  | .jump _ ahead => i + 1 + ahead ≤ n
  | .loop exit again => i + 1 + exit ≤ n ∧ i + 1 + again ≤ n
  | .func behind => behind ≤ i

/-- Items stand in the code, each at its place and one behind the other. -/
structure Stands (code : Array UInt8) (items : List Item) (place : Nat → Nat) : Prop where
  read : ∀ {i : Nat} {item : Item}, items[i]? = some item →
    item.ReadAs place i (Decoded.read code (place i))
  within : ∀ {i : Nat} {item : Item}, items[i]? = some item → item.Within items.length i
  lt : ∀ {i : Nat}, i < items.length → place i < place (i + 1)
  inside : place items.length ≤ code.size

theorem Laid.within {cs : List Chunk} (h : Laid cs) {i : Nat} {c : Chunk} (hc : cs[i]? = some c) :
    c.item.Within cs.length i := by
  have hfits := h.fits hc
  have hlt : i < cs.length := (List.getElem?_eq_some_iff.mp hc).1
  unfold Chunk.Fits at hfits
  rw [List.length_take, List.length_drop] at hfits
  split at hfits
  case h_1 hitem =>
    rw [hitem]
    trivial
  case h_2 hitem =>
    rw [hitem]
    show _ + 1 + _ ≤ _
    have := hfits.1
    omega
  case h_3 hitem =>
    rw [hitem]
    show _ + 1 + _ ≤ _ ∧ _ + 1 + _ ≤ _
    have := hfits.1
    have := hfits.2.1
    omega
  case h_4 hitem =>
    rw [hitem]
    show _ ≤ _
    have := hfits.1
    omega

/-- The items of a laid list stand where its bytes do. -/
theorem Laid.stands {cs : List Chunk} (h : Laid cs) {code : Array UInt8} {start : Nat}
    (hcode : Spells code start (bytesOf cs)) (hsize : code.size < UInt64.size) (hstart : start ≤ code.size) :
    Stands code (cs.map Chunk.item) fun i => start + placeIn cs i := by
  have hlength : start + sizeOf cs ≤ code.size := hcode.length_le hstart
  refine ⟨?_, ?_, ?_, ?_⟩
  · intro i item hitem
    rw [List.getElem?_map] at hitem
    obtain ⟨c, hc, rfl⟩ := Option.map_eq_some_iff.mp hitem
    exact h.read hcode (by omega) hc
  · intro i item hitem
    rw [List.getElem?_map] at hitem
    obtain ⟨c, hc, rfl⟩ := Option.map_eq_some_iff.mp hitem
    rw [List.length_map]
    exact h.within hc
  · intro i hi
    rw [List.length_map] at hi
    have := h.place_lt hi
    omega
  · rw [List.length_map, placeIn_length]
    exact hlength

namespace Stands

variable {code : Array UInt8} {items : List Item} {place : Nat → Nat}

theorem place_lt_place (h : Stands code items place) {i j : Nat} (hij : i < j) (hj : j ≤ items.length) :
    place i < place j := by
  induction j with
  | zero => omega
  | succ j ih =>
    have hstep := h.lt (i := j) (by omega)
    by_cases heq : i = j
    · rwa [heq]
    · have := ih (by omega) (by omega)
      omega

/-- Two items do not share a place. -/
theorem place_inj (h : Stands code items place) {i j : Nat} (hi : i ≤ items.length) (hj : j ≤ items.length)
    (heq : place i = place j) : i = j := by
  rcases Nat.lt_trichotomy i j with hlt | rfl | hlt
  · have := h.place_lt_place hlt hj
    omega
  · rfl
  · have := h.place_lt_place hlt hi
    omega

/-- Where the first item stands says where all of them do. -/
theorem unique {place' : Nat → Nat} (h : Stands code items place) (h' : Stands code items place')
    (hfirst : place' 0 = place 0) {i : Nat} (hi : i ≤ items.length) : place' i = place i := by
  induction i with
  | zero => exact hfirst
  | succ i ih =>
    have hat := List.getElem?_eq_getElem (Nat.lt_of_succ_le hi)
    obtain ⟨_, _, hread⟩ := (h.read hat).exists_instr
    obtain ⟨_, _, hread'⟩ := (h'.read hat).exists_instr
    rw [ih (Nat.le_of_succ_le hi), hread] at hread'
    exact (Decoded.instr.inj hread').2.2.symm

theorem place_lt_size (h : Stands code items place) {i : Nat} (hi : i < items.length) :
    place i < code.size :=
  Nat.lt_of_lt_of_le (h.place_lt_place hi (Nat.le_refl _)) h.inside

end Stands

end ScriptEngine.Code
