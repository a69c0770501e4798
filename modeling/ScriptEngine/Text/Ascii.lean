/-!
Digits and letters of ASCII. Other scripts have digits too; none of them counts here.
-/

namespace ScriptEngine.Text

/-- A decimal digit. -/
def isDigit (c : Char) : Bool :=
  '0' ≤ c && c ≤ '9'

/-- A letter. -/
def isLetter (c : Char) : Bool :=
  ('a' ≤ c && c ≤ 'z') || ('A' ≤ c && c ≤ 'Z')

/-- The value of a hexadecimal digit in either case. -/
def hexValue? (c : Char) : Option Nat :=
  if isDigit c then some (c.toNat - '0'.toNat)
  else if 'a' ≤ c && c ≤ 'f' then some (c.toNat - 'a'.toNat + 10)
  else if 'A' ≤ c && c ≤ 'F' then some (c.toNat - 'A'.toNat + 10)
  else none

/-- A hexadecimal digit in either case. -/
def isHexDigit (c : Char) : Bool :=
  (hexValue? c).isSome

/-- The value of a decimal digit. -/
def digitValue (c : Char) : Nat :=
  c.toNat - '0'.toNat

/-- The natural number that digits spell in a base. -/
def ofNumeral (base : Nat) (digits : List Nat) : Nat :=
  digits.foldl (fun n d => n * base + d) 0

/-- The natural number that digits spell in a base, if it is at most `limit`. No number above that is
built, however many digits follow. -/
def ofNumeral? (base limit : Nat) (digits : List Nat) : Option Nat :=
  digits.foldlM (fun n d => if n * base + d ≤ limit then some (n * base + d) else none) 0

/-- The natural number that decimal digits spell. -/
def ofDigits (cs : List Char) : Nat :=
  ofNumeral 10 (cs.map digitValue)

/-- The natural number that decimal digits spell, if it is at most `limit`. -/
def ofDigits? (limit : Nat) (cs : List Char) : Option Nat :=
  ofNumeral? 10 limit (cs.map digitValue)

/-- Further digits make no number smaller. -/
theorem le_foldl_numeral {base : Nat} (hbase : 0 < base) (digits : List Nat) (n : Nat) :
    n ≤ digits.foldl (fun n d => n * base + d) n := by
  induction digits generalizing n with
  | nil => exact Nat.le_refl n
  | cons d rest ih =>
    have hstep : n ≤ n * base + d :=
      Nat.le_trans (Nat.le_mul_of_pos_right n hbase) (Nat.le_add_right _ d)
    exact Nat.le_trans hstep (ih (n * base + d))

/-- Reading up to a limit is reading, and then looking at the limit. -/
theorem ofNumeral?_eq {base : Nat} (hbase : 0 < base) (limit : Nat) (digits : List Nat) :
    ofNumeral? base limit digits
      = if ofNumeral base digits ≤ limit then some (ofNumeral base digits) else none := by
  suffices h : ∀ n ≤ limit,
      digits.foldlM (fun n d => if n * base + d ≤ limit then some (n * base + d) else none) n
        = if digits.foldl (fun n d => n * base + d) n ≤ limit
          then some (digits.foldl (fun n d => n * base + d) n) else none from
    h 0 (Nat.zero_le limit)
  induction digits with
  | nil => intro n hn; simp [hn]
  | cons d rest ih =>
    intro n _
    by_cases hd : n * base + d ≤ limit
    · rw [List.foldlM_cons, if_pos hd]
      exact ih (n * base + d) hd
    · have hrest := le_foldl_numeral hbase rest (n * base + d)
      rw [List.foldlM_cons, if_neg hd, List.foldl_cons, if_neg (by omega)]
      rfl

end ScriptEngine.Text
