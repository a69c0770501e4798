/-!
White space of Unicode: the characters with the property White_Space.
-/

namespace ScriptEngine.Text

/-- Whether a character is white space. -/
def isBlank (c : Char) : Bool :=
  let n := c.toNat
  (0x09 ≤ n && n ≤ 0x0D) || n == 0x20 || n == 0x85 || n == 0xA0 || n == 0x1680
    || (0x2000 ≤ n && n ≤ 0x200A) || n == 0x2028 || n == 0x2029 || n == 0x202F || n == 0x205F
    || n == 0x3000

/-- The text without white space in front. -/
def trimStart (cs : List Char) : List Char :=
  cs.dropWhile isBlank

/-- The text without white space behind. -/
def trimEnd (cs : List Char) : List Char :=
  (cs.reverse.dropWhile isBlank).reverse

/-- The text without white space around it. -/
def trim (cs : List Char) : List Char :=
  trimEnd (trimStart cs)

/-- The words between white space. -/
def words (cs : List Char) : List (List Char) :=
  let (word, done) := cs.foldr (fun c (word, done) =>
    if isBlank c then ([], if word.isEmpty then done else word :: done) else (c :: word, done)) ([], [])
  if word.isEmpty then done else word :: done

end ScriptEngine.Text
