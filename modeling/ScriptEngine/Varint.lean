/-!
Base-128 numbers, least significant group first.

Every byte but the last of an encoding has its top bit set. Instruction operands, string lengths
and the line table of a unit are written this way. `encodePadded` writes a number in a width chosen
beforehand, which is how a distance that is not known yet keeps its place in the code; the extra
groups are zero, so they decode to the same number.
-/

namespace ScriptEngine.Varint

/-- How many groups of seven bits `v` needs; zero needs one. -/
def length (v : Nat) : Nat :=
  if v < 128 then 1 else length (v / 128) + 1

/-- Writes `v` in exactly `width` bytes. The width is at least `length v` wherever it is used. -/
def encodePadded (v : Nat) : Nat → List UInt8
  | 0 => []
  | 1 => [UInt8.ofNat (v % 128)]
  | width + 2 => UInt8.ofNat (v % 128 + 128) :: encodePadded (v / 128) (width + 1)

/-- The shortest encoding of `v`. -/
def encode (v : Nat) : List UInt8 :=
  encodePadded v (length v)

/-- Reads at most `groups` groups: the number they spell and how many bytes it took. -/
def decodeGroups : Nat → List UInt8 → Option (Nat × Nat)
  | 0, _ => none
  | _ + 1, [] => none
  | groups + 1, b :: rest =>
    if b < 128 then
      some (b.toNat, 1)
    else
      (decodeGroups groups rest).map fun (v, used) => (b.toNat - 128 + 128 * v, used + 1)

/-- No number takes more bytes than this. -/
def maxLength : Nat := 10

/-- Reads the number at the start of `bytes` and says how many bytes it took. Ten groups carry
seventy bits; the number is kept to its low sixty-four. -/
def decode (bytes : List UInt8) : Option (Nat × Nat) :=
  (decodeGroups maxLength bytes).map fun (v, used) => (v % UInt64.size, used)

/-- Reads at most `groups` groups from a place on; `byte?` says which byte is at a place. -/
@[specialize] def decodeGroupsAt (byte? : Nat → Option UInt8) (pos : Nat) : Nat → Option (Nat × Nat)
  | 0 => none
  | groups + 1 =>
    match byte? pos with
    | none => none
    | some b =>
      if b < 128 then
        some (b.toNat, 1)
      else
        (decodeGroupsAt byte? (pos + 1) groups).map fun (v, used) =>
          (b.toNat - 128 + 128 * v, used + 1)

/-- Reads the number that starts at a place; `byte?` says which byte is at a place. -/
@[inline] def decodeAt (byte? : Nat → Option UInt8) (pos : Nat) : Option (Nat × Nat) :=
  (decodeGroupsAt byte? pos maxLength).map fun (v, used) => (v % UInt64.size, used)

theorem length_pos (v : Nat) : 0 < length v := by
  unfold length
  split <;> omega

@[simp] theorem length_encodePadded (v width : Nat) : (encodePadded v width).length = width := by
  fun_induction encodePadded v width <;> simp_all

@[simp] theorem length_encode (v : Nat) : (encode v).length = length v :=
  length_encodePadded v (length v)

theorem decodeGroupsAt_eq (bytes : List UInt8) (pos groups : Nat) :
    decodeGroupsAt (fun i => bytes[i]?) pos groups = decodeGroups groups (bytes.drop pos) := by
  induction groups generalizing pos with
  | zero => simp [decodeGroupsAt, decodeGroups]
  | succ groups ih =>
    unfold decodeGroupsAt
    by_cases hpos : pos < bytes.length
    · rw [List.drop_eq_getElem_cons hpos, decodeGroups, List.getElem?_eq_getElem hpos]
      simp only [ih]
    · rw [List.drop_of_length_le (by omega), List.getElem?_eq_none (by omega)]
      rfl

/-- Reading at a place is reading the bytes from there on. -/
theorem decodeAt_eq_decode (bytes : List UInt8) (pos : Nat) :
    decodeAt (fun i => bytes[i]?) pos = decode (bytes.drop pos) := by
  rw [decodeAt, decode, decodeGroupsAt_eq]

end ScriptEngine.Varint
