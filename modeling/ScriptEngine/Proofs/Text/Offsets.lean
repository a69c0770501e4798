import ScriptEngine.Text.Blank
/-!
Text by the offsets of its bytes.

A character takes one to four bytes, and a text can be cut only between two characters. An offset at which something
was found is such a place (`slice?_append`); the offset behind it is one only if what was found takes a single byte
(`slice?_eq_none`).
-/

namespace ScriptEngine.Text

/-- The number of bytes of a text. -/
def byteLength : List Char → Nat
  | [] => 0
  | c :: rest => c.utf8Size + byteLength rest

/-- The two parts of a text at an offset, if that lies between two characters of the text or at one of its ends. -/
def splitAt? : List Char → Nat → Option (List Char × List Char)
  | cs, 0 => some ([], cs)
  | [], _ + 1 => none
  | c :: rest, offset + 1 =>
    if offset + 1 < c.utf8Size then none
    else (splitAt? rest (offset + 1 - c.utf8Size)).map fun (front, back) => (c :: front, back)

/-- The text between two offsets. -/
def slice? (cs : List Char) (start stop : Nat) : Option (List Char) :=
  splitAt? cs stop >>= fun (front, _) => (splitAt? front start).map (·.2)

/-- The offset of the first character of a kind. -/
def offsetOf? (kind : Char → Bool) : List Char → Option Nat
  | [] => none
  | c :: rest => if kind c then some 0 else (offsetOf? kind rest).map (c.utf8Size + ·)

/-- The offset of the last character of a kind. -/
def lastOffsetOf? (kind : Char → Bool) : List Char → Option Nat
  | [] => none
  | c :: rest =>
    match lastOffsetOf? kind rest with
    | some offset => some (c.utf8Size + offset)
    | none => if kind c then some 0 else none

/-- The characters, each with its offset, of a text that starts at an offset. -/
def charOffsets : List Char → Nat → List (Nat × Char)
  | [], _ => []
  | c :: rest, offset => (offset, c) :: charOffsets rest (offset + c.utf8Size)

variable {kind : Char → Bool} {c : Char} {cs front back : List Char}

@[simp] theorem byteLength_nil : byteLength [] = 0 := rfl

@[simp] theorem byteLength_cons (c : Char) (cs : List Char) : byteLength (c :: cs) = c.utf8Size + byteLength cs := rfl

@[simp] theorem byteLength_append (cs ds : List Char) : byteLength (cs ++ ds) = byteLength cs + byteLength ds := by
  induction cs with
  | nil => simp
  | cons c cs ih => simp [ih, Nat.add_assoc]

/-! ## Cuts -/

theorem splitAt?_zero (cs : List Char) : splitAt? cs 0 = some ([], cs) := by
  cases cs <;> rfl

/-- One character in front moves the cut by the bytes of it. -/
theorem splitAt?_cons (c : Char) (rest : List Char) (offset : Nat) :
    splitAt? (c :: rest) (c.utf8Size + offset) = (splitAt? rest offset).map fun (front, back) => (c :: front, back) := by
  have hpos := c.utf8Size_pos
  obtain ⟨size, hsize⟩ : ∃ size, c.utf8Size = size + 1 := ⟨c.utf8Size - 1, by omega⟩
  have hback : size + offset + 1 - c.utf8Size = offset := by omega
  rw [hsize, Nat.add_right_comm, splitAt?, if_neg (by omega), hback]

theorem splitAt?_append (front back : List Char) : splitAt? (front ++ back) (byteLength front) = some (front, back) := by
  induction front with
  | nil => exact splitAt?_zero back
  | cons c front ih => rw [List.cons_append, byteLength_cons, splitAt?_cons, ih, Option.map_some]

theorem splitAt?_eq_none {inside : Nat} (hpos : 0 < inside) (hsize : inside < c.utf8Size) (front back : List Char) :
    splitAt? (front ++ c :: back) (byteLength front + inside) = none := by
  induction front with
  | nil =>
    obtain ⟨inside, rfl⟩ : ∃ before, inside = before + 1 := ⟨inside - 1, by omega⟩
    rw [List.nil_append, byteLength_nil, Nat.zero_add, splitAt?, if_pos hsize]
  | cons d front ih => rw [List.cons_append, byteLength_cons, Nat.add_assoc, splitAt?_cons, ih, Option.map_none]

/-- Between two cuts of a text stands what is put together to the text. -/
theorem slice?_append (front cs back : List Char) :
    slice? (front ++ (cs ++ back)) (byteLength front) (byteLength front + byteLength cs) = some cs := by
  rw [slice?, ← byteLength_append, ← List.append_assoc, splitAt?_append]
  change (splitAt? (front ++ cs) (byteLength front)).map (·.2) = _
  rw [splitAt?_append]
  rfl

/-- Up to its end, a text cannot be cut inside of a character. -/
theorem slice?_eq_none {inside : Nat} (hpos : 0 < inside) (hsize : inside < c.utf8Size) (front back : List Char) :
    slice? (front ++ c :: back) (byteLength front + inside) (byteLength (front ++ c :: back)) = none := by
  have hall := splitAt?_append (front ++ c :: back) []
  rw [List.append_nil] at hall
  rw [slice?, hall]
  change (splitAt? (front ++ c :: back) (byteLength front + inside)).map (·.2) = _
  rw [splitAt?_eq_none hpos hsize, Option.map_none]

/-! ## Searches -/

theorem offsetOf?_append (hc : kind c = true) (hfront : ∀ d ∈ front, kind d = false) (back : List Char) :
    offsetOf? kind (front ++ c :: back) = some (byteLength front) := by
  induction front with
  | nil => simp [offsetOf?, hc]
  | cons d front ih =>
    obtain ⟨hd, hfront⟩ := List.forall_mem_cons.mp hfront
    simp [offsetOf?, hd, ih hfront]

theorem lastOffsetOf?_eq_none (h : ∀ c ∈ cs, kind c = false) : lastOffsetOf? kind cs = none := by
  induction cs with
  | nil => rfl
  | cons c rest ih =>
    obtain ⟨hc, hrest⟩ := List.forall_mem_cons.mp h
    simp [lastOffsetOf?, hc, ih hrest]

theorem lastOffsetOf?_append (hc : kind c = true) (hback : ∀ d ∈ back, kind d = false) (front : List Char) :
    lastOffsetOf? kind (front ++ c :: back) = some (byteLength front) := by
  induction front with
  | nil => simp [lastOffsetOf?, hc, lastOffsetOf?_eq_none hback]
  | cons d front ih => simp [lastOffsetOf?, ih]

/-- The characters from an offset on. -/
theorem dropWhile_charOffsets (front back : List Char) (offset : Nat) :
    (charOffsets (front ++ back) offset).dropWhile (fun place => place.1 < offset + byteLength front)
      = charOffsets back (offset + byteLength front) := by
  induction front generalizing offset with
  | nil => cases back <;> simp [charOffsets]
  | cons c front ih =>
    have hpos := c.utf8Size_pos
    have hnext := ih (offset + c.utf8Size)
    rw [Nat.add_assoc, ← byteLength_cons] at hnext
    rw [List.cons_append, charOffsets, List.dropWhile_cons_of_pos (by simp; omega), hnext]

end ScriptEngine.Text
