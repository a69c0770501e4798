import Mathlib.Data.Int.Init
import Mathlib.Data.List.Basic
import ScriptEngine.Machine.Property
import ScriptEngine.Proofs.Text
/-!
Numbers as keys.

A key names an index by its number or, if it is none, by the digits of its text. Both ways agree: the index of a number
is the index that its text names (`keyIndex?_number`). A whole number below 2⁵³ is written in full, and its digits read
back; the text of any other number has a character that is no digit. For large numbers that is the `e` in front of the
exponent, and it is there because their shortest digits are not zero (`Magnitude.shortest_ne_zero`).
-/

namespace ScriptEngine

namespace Decimal

/-! ## Shortest digits -/

variable {m : Magnitude} {d : Digits} {scale : Int}

theorem Digits.stripZeros_ne_zero (h : d.digits ≠ 0) (limit : Nat) : (d.stripZeros limit).digits ≠ 0 := by
  induction limit generalizing d with
  | zero => exact h
  | succ limit ih =>
    rw [stripZeros]
    split
    · rename_i hzeros
      rw [Bool.and_eq_true, beq_iff_eq] at hzeros
      refine ih ?_
      show d.digits / 10 ≠ 0
      omega
    · exact h

/-- What is on a grid next to a positive magnitude is not zero. -/
theorem Magnitude.onGrid?_ne_zero (hm : m.mantissa ≠ 0) (h : m.onGrid? scale = some d) : d.digits ≠ 0 := by
  have hup : 0 < overPart 2 (m.exponent - 2) * underPart 10 scale :=
    Nat.mul_pos (Nat.pow_pos (by decide)) (Nat.pow_pos (by decide))
  have hcut : (if m.narrowBelow then 1 else 2) ≤ 2 := by split_ifs <;> decide
  unfold onGrid? at h
  generalize (if m.narrowBelow then 1 else 2) = cut at h hcut
  generalize overPart 2 (m.exponent - 2) * underPart 10 scale = up at h hup
  generalize underPart 2 (m.exponent - 2) * overPart 10 scale = unit at h
  -- The reals that round to the magnitude are positive, so that zero is not among them.
  have hlow : 0 < (4 * m.mantissa - cut) * up := Nat.mul_pos (by omega) hup
  have hbelow (below : Nat) (hin : (decide ((4 * m.mantissa - cut) * up < below * unit)
      || (m.mantissa % 2 == 0 && (4 * m.mantissa - cut) * up == below * unit)) = true) : below ≠ 0 := by
    rintro rfl
    rw [Nat.zero_mul] at hin
    simp only [Bool.or_eq_true, Bool.and_eq_true, decide_eq_true_eq, beq_iff_eq] at hin
    omega
  dsimp only at h
  split_ifs at h with hboth hnear hin hout
  · cases h
    exact Nat.succ_ne_zero _
  · cases h
    exact hbelow _ (Bool.and_eq_true_iff.mp hboth).1
  · cases h
    exact hbelow _ hin
  · cases h
    exact Nat.succ_ne_zero _

/-- A grid that is finer than a quarter of what rounds to the magnitude has a number there. -/
theorem Magnitude.onGrid?_isSome (hm : m.mantissa ≠ 0)
    (hfine : underPart 2 (m.exponent - 2) * overPart 10 scale ≤ overPart 2 (m.exponent - 2) * underPart 10 scale) :
    (m.onGrid? scale).isSome := by
  have hunit : 0 < underPart 2 (m.exponent - 2) * overPart 10 scale :=
    Nat.mul_pos (Nat.pow_pos (by decide)) (Nat.pow_pos (by decide))
  have hcut : 1 ≤ (if m.narrowBelow then 1 else 2) ∧ (if m.narrowBelow then 1 else 2) ≤ 2 := by split_ifs <;> decide
  unfold onGrid?
  generalize (if m.narrowBelow then 1 else 2) = cut at hcut ⊢
  generalize overPart 2 (m.exponent - 2) * underPart 10 scale = up at hfine ⊢
  generalize underPart 2 (m.exponent - 2) * overPart 10 scale = unit at hfine hunit ⊢
  -- The neighbour below is less than one unit away, and the interval goes further down than that.
  have hin : (4 * m.mantissa - cut) * up < 4 * m.mantissa * up / unit * unit := by
    have hlow : (4 * m.mantissa - cut) * up + up ≤ 4 * m.mantissa * up := by
      rw [← Nat.succ_mul]
      exact Nat.mul_le_mul_right up (by omega)
    have hvalue := Nat.div_add_mod (4 * m.mantissa * up) unit
    have hrest := Nat.mod_lt (4 * m.mantissa * up) hunit
    rw [Nat.mul_comm unit] at hvalue
    omega
  simp only [decide_eq_true hin, Bool.true_or, Bool.true_and, if_true]
  split_ifs
  · rfl
  · rfl
  · rfl

/-- Digits are found if they are on one of the grids that are tried. -/
theorem Magnitude.shortestFrom_ne_zero (hm : m.mantissa ≠ 0) {tries : Nat} {j : Nat} (hj : j < tries)
    (hgrid : (m.onGrid? (scale - j)).isSome) : (m.shortestFrom scale tries).digits ≠ 0 := by
  induction tries generalizing scale j with
  | zero => exact absurd hj (Nat.not_lt_zero j)
  | succ tries ih =>
    rw [shortestFrom]
    cases hfirst : m.onGrid? scale with
    | some d => exact Digits.stripZeros_ne_zero (onGrid?_ne_zero hm hfirst) 20
    | none =>
      cases j with
      | zero =>
        rw [Int.natCast_zero, Int.sub_zero, hfirst] at hgrid
        cases hgrid
      | succ j =>
        refine ih (Nat.lt_of_succ_lt_succ hj) ?_
        rwa [Int.sub_sub, Int.add_comm, ← Int.natCast_succ]

/-- A coarser grid is not finer. -/
theorem fine_of_le {e s s' : Int} (hs : s' ≤ s)
    (h : underPart 2 e * overPart 10 s ≤ overPart 2 e * underPart 10 s) :
    underPart 2 e * overPart 10 s' ≤ overPart 2 e * underPart 10 s' :=
  calc underPart 2 e * overPart 10 s'
      ≤ underPart 2 e * overPart 10 s := Nat.mul_le_mul_left _ (Nat.pow_le_pow_right (by decide) (by omega))
    _ ≤ overPart 2 e * underPart 10 s := h
    _ ≤ overPart 2 e * underPart 10 s' := Nat.mul_le_mul_left _ (Nat.pow_le_pow_right (by decide) (by omega))

/-- For every exponent of a large double, eighteen digits behind the estimated first one make the grid fine enough. -/
theorem fine_of_exponent {k : Nat} (hk : k < 971) :
    underPart 2 ((k + 1 : Nat) - 2) * overPart 10 (((53 + k) * 30103 / 100000 : Nat) - 18)
      ≤ overPart 2 ((k + 1 : Nat) - 2) * underPart 10 (((53 + k) * 30103 / 100000 : Nat) - 18) := by
  have hall : ∀ k < 971, underPart 2 ((k + 1 : Nat) - 2) * overPart 10 (((53 + k) * 30103 / 100000 : Nat) - 18)
      ≤ overPart 2 ((k + 1 : Nat) - 2) * underPart 10 (((53 + k) * 30103 / 100000 : Nat) - 18) := by
    decide +kernel
  exact hall k hk

/-- The shortest digits of a large double are not zero. -/
theorem Magnitude.shortest_ne_zero (hm : m.mantissa ≠ 0) (hmantissa : m.mantissa < 1 <<< 53) (hleast : 1 ≤ m.exponent)
    (hmost : m.exponent ≤ 971) : m.shortest.digits ≠ 0 := by
  obtain ⟨k, hk⟩ : ∃ k : Nat, m.exponent = (k + 1 : Nat) := ⟨(m.exponent - 1).toNat, by omega⟩
  have hlog : Nat.log2 m.mantissa < 53 := (Nat.log2_lt hm).mpr (by simpa [Nat.shiftLeft_eq] using hmantissa)
  have hscale : m.leadingExponent - (19 : Nat) ≤ ((53 + k) * 30103 / 100000 : Nat) - 18 := by
    unfold leadingExponent
    rw [Int.fdiv_eq_ediv_of_nonneg _ (by decide)]
    dsimp only
    split_ifs <;> omega
  have hfine := fine_of_le hscale (fine_of_exponent (k := k) (by omega))
  rw [← hk] at hfine
  unfold shortest
  rw [if_neg (by simpa using hm)]
  exact shortestFrom_ne_zero hm (by decide) (onGrid?_isSome hm hfine)

/-! ## Doubles -/

/-- What a double reads as when it is finite. -/
theorem double_read_finite {bits : Nat} {negative : Bool} (h : double.read bits = .finite negative m) :
    m.mantissa < 1 <<< 53 ∧ m.exponent ≤ 971 := by
  have hfraction : bits % (1 <<< 52) < 1 <<< 52 := Nat.mod_lt _ (by decide)
  have hfield : (bits >>> 52) % (1 <<< 11) < 1 <<< 11 := Nat.mod_lt _ (by decide)
  unfold BinaryFormat.read at h
  rw [show double.fractionBits = 52 from rfl, show double.exponentBits = 11 from rfl,
    show double.fullField = 2047 from rfl, show double.leastExponent = -1074 from rfl] at h
  dsimp only at h
  generalize bits % (1 <<< 52) = fraction at h hfraction
  generalize (bits >>> 52) % (1 <<< 11) = field at h hfield
  split at h
  · split at h <;> cases h
  · rename_i hfull
    split at h
    · injection h with hsign hsize
      rw [← hsize]
      exact ⟨Nat.lt_trans hfraction (by decide), show (-1074 : Int) ≤ 971 by decide⟩
    · have hmost : field ≠ 2047 := fun heq => hfull (beq_iff_eq.mpr heq)
      have hfractions : (1 <<< 52 : Nat) = 4503599627370496 ∧ (1 <<< 53 : Nat) = 9007199254740992 := by decide
      have hfields : (1 <<< 11 : Nat) = 2048 := by decide
      injection h with hsign hsize
      rw [← hsize]
      refine ⟨?_, ?_⟩ <;> dsimp only <;> omega

/-- A large double has shortest digits that are not zero. -/
theorem Magnitude.shortest_ne_zero_of_whole (hmantissa : m.mantissa < 1 <<< 53) (hmost : m.exponent ≤ 971)
    (hwhole : 1 <<< 53 ≤ m.whole) : m.shortest.digits ≠ 0 := by
  have hleast : 1 ≤ m.exponent := by
    refine Int.not_lt.mp fun hlt => ?_
    have hle : m.whole ≤ m.mantissa := by
      unfold whole overPart
      rw [show m.exponent.toNat = 0 by omega, Nat.pow_eq, Nat.pow_zero, Nat.mul_one]
      exact Nat.div_le_self _ _
    omega
  have hm : m.mantissa ≠ 0 := by
    intro hzero
    rw [whole, hzero, Nat.zero_mul, Nat.zero_div] at hwhole
    exact absurd hwhole (by decide)
  exact shortest_ne_zero hm hmantissa hleast hmost

end Decimal

/-! ## Names of indices -/

/-- The index that a text names. -/
def nameIndex? (name : List UInt8) : Option Nat :=
  keyIndex? .undefined name

/-- An ASCII character is one byte, which is read as the character. -/
theorem encode_ascii {c : Char} (hc : c.toNat < 128) :
    (String.utf8EncodeChar c).map (fun b => Char.ofNat b.toNat) = [c] := by
  unfold String.utf8EncodeChar
  dsimp only
  rw [show c.val.toNat = c.toNat from rfl, if_pos (Nat.le_of_lt_succ hc), List.map_singleton, UInt8.toNat_ofNat',
    Nat.mod_eq_of_lt (by omega), Char.ofNat_toNat]

/-- The bytes of a text, each read as a character. -/
theorem chars_bytesOf (cs : List Char) : (Text.bytesOf (String.ofList cs)).map (fun b => Char.ofNat b.toNat)
    = cs.flatMap fun c => (String.utf8EncodeChar c).map fun b => Char.ofNat b.toNat := by
  rw [Text.bytesOf_ofList, List.map_flatMap]

/-- Digits are ASCII. -/
theorem toNat_of_isDigit {c : Char} (h : Text.isDigit c = true) : c.toNat < 128 := by
  simp only [Text.isDigit, Bool.and_eq_true, decide_eq_true_eq, Char.le_def, UInt32.le_iff_toNat_le] at h
  exact Nat.lt_of_le_of_lt h.2 (by decide)

/-- Digits name the index that they spell, if it is not too large. -/
theorem nameIndex?_digits {cs : List Char} (hne : cs ≠ []) (hcs : ∀ c ∈ cs, Text.isDigit c = true) :
    nameIndex? (Text.bytesOf (String.ofList cs)) = Text.ofDigits? maxArrayIndex cs := by
  have hchars : (Text.bytesOf (String.ofList cs)).map (fun b => Char.ofNat b.toNat) = cs := by
    rw [chars_bytesOf, List.flatMap_congr fun c hc => encode_ascii (toNat_of_isDigit (hcs c hc)),
      List.flatMap_singleton']
  have hall : cs.all Text.isDigit = true := List.all_eq_true.mpr hcs
  simp only [nameIndex?, keyIndex?, hchars, hall, Bool.not_true, Bool.or_false, List.isEmpty_iff, if_neg hne]

/-- An ASCII character of a text is one of its bytes. -/
theorem mem_chars_bytesOf {text : String} {c : Char} (hmem : c ∈ text.toList) (hascii : c.toNat < 128) :
    c ∈ (Text.bytesOf text).map fun b => Char.ofNat b.toNat := by
  rw [← String.ofList_toList (s := text), chars_bytesOf, List.mem_flatMap]
  exact ⟨c, hmem, by rw [encode_ascii hascii]; exact List.mem_singleton_self c⟩

/-- A text with an ASCII character that is no digit names no index. -/
theorem nameIndex?_of_mem {text : String} {c : Char} (hmem : c ∈ text.toList) (hascii : c.toNat < 128)
    (hc : Text.isDigit c = false) : nameIndex? (Text.bytesOf text) = none := by
  have hthere := mem_chars_bytesOf hmem hascii
  have hall : ((Text.bytesOf text).map fun b => Char.ofNat b.toNat).all Text.isDigit = false := by
    rw [List.all_eq_false]
    exact ⟨c, hthere, by rw [hc]; decide⟩
  simp only [nameIndex?, keyIndex?, hall, Bool.not_false, Bool.or_true, if_true]

theorem isDigit_of_mem_digitChars {n : Nat} {c : Char} (hc : c ∈ Decimal.digitChars n) : Text.isDigit c = true := by
  have := Nat.isDigit_of_mem_toDigits (by decide) (by decide) hc
  simpa [Text.isDigit, Char.isDigit, Char.le_def] using this

/-- The digits of a number name it. -/
theorem nameIndex?_digitChars (n : Nat) : nameIndex? (Text.bytesOf (String.ofList (Decimal.digitChars n)))
    = if n ≤ maxArrayIndex then some n else none := by
  have hvalue : Text.ofNumeral 10 ((Decimal.digitChars n).map Text.digitValue) = n := by
    have hfold : (fun (k : Nat) (c : Char) => k * 10 + Text.digitValue c) = fun k c => 10 * k + (c.toNat - '0'.toNat) :=
      funext fun k => funext fun c => by rw [Nat.mul_comm, Text.digitValue]
    rw [Text.ofNumeral, List.foldl_map, hfold, ← Nat.ofDigitChars_eq_foldl]
    exact Nat.ofDigitChars_ten_toDigits
  have hne : Decimal.digitChars n ≠ [] := Nat.toDigits_ne_nil
  rw [nameIndex?_digits hne fun c => isDigit_of_mem_digitChars, Text.ofDigits?, Text.ofNumeral?_eq (by decide), hvalue]

/-! ## The text of a number -/

open Decimal

/-- Fixed places have a point in front of them. -/
theorem point_mem_fixedPlaces (m : Magnitude) (places : Nat) : '.' ∈ fixedPlaces m (places + 1) := by
  unfold fixedPlaces positional
  have hneg : ¬ 0 ≤ (-((places + 1 : Nat) : Int)) := by omega
  simp only [if_neg hneg]
  exact List.mem_append_right _ List.mem_cons_self

/-- Exponent notation has an `e`. -/
theorem e_mem_scientific (d : Digits) (plus : Bool) : 'e' ∈ scientific d plus := by
  unfold scientific
  simp

/-- Positional notation has all the digits. -/
theorem digitChars_subset_positional (d : Digits) : digitChars d.digits ⊆ positional d := by
  intro c hc
  unfold positional
  dsimp only
  split
  · exact List.mem_append_left _ hc
  · generalize hplaces : (List.replicate _ '0' ++ digitChars d.digits).length - _ = places
    have hpadded := List.mem_append_right (List.replicate ((-d.scale).toNat + 1 - (digitChars d.digits).length) '0') hc
    rw [← List.take_append_drop places (List.replicate _ '0' ++ _), List.mem_append] at hpadded
    rcases hpadded with htake | hdrop
    · exact List.mem_append_left _ htake
    · exact List.mem_append_right _ (List.mem_cons_of_mem _ hdrop)

/-- The text of a finite number has a digit. -/
theorem exists_digit_text {n : Number} {negative : Bool} {m : Magnitude} (hread : n.reading = .finite negative m) :
    ∃ c ∈ n.text.toList, Text.isDigit c = true := by
  have hdigits (k : Nat) : ∃ c ∈ digitChars k, Text.isDigit c = true := by
    obtain ⟨c, hc⟩ := List.exists_mem_of_ne_nil _ (Nat.toDigits_ne_nil (n := k) (b := 10))
    exact ⟨c, hc, isDigit_of_mem_digitChars hc⟩
  have hpositional (d : Digits) : ∃ c ∈ positional d, Text.isDigit c = true := by
    obtain ⟨c, hc, hdigit⟩ := hdigits d.digits
    exact ⟨c, digitChars_subset_positional d hc, hdigit⟩
  have hscientific (d : Digits) : ∃ c ∈ scientific d true, Text.isDigit c = true := by
    obtain ⟨c, hc, hdigit⟩ := hdigits d.leadingExponent.natAbs
    exact ⟨c, List.mem_append_right _ hc, hdigit⟩
  have hmagnitude : ∃ c ∈ Style.exponent.magnitude m, Text.isDigit c = true := by
    unfold Style.magnitude
    dsimp only [Style.exponent]
    split
    · exact hpositional _
    · exact hscientific _
  unfold Number.text
  rw [hread]
  dsimp only
  split
  · obtain ⟨c, hc, hdigit⟩ := hmagnitude
    exact ⟨c, by rw [Style.write, String.toList_ofList]; exact List.mem_append_right _ hc, hdigit⟩
  · split
    · obtain ⟨c, hc, hdigit⟩ := hdigits m.whole
      exact ⟨c, by rw [String.toList_append, String.toList_ofList]; exact List.mem_append_right _ hc, hdigit⟩
    · obtain ⟨c, hc, hdigit⟩ := hpositional ⟨m.roundTo 6, -(6 : Nat)⟩
      exact ⟨c, by rw [String.toList_append, String.toList_ofList]; exact List.mem_append_right _ hc, hdigit⟩

/-- From the size on from which numbers are written with an exponent, they are. -/
theorem magnitude_eq_scientific {m : Magnitude} (hmantissa : m.mantissa < 1 <<< 53) (hmost : m.exponent ≤ 971)
    (hwhole : Number.exponentFrom ≤ m.whole) : Style.exponent.magnitude m = scientific m.shortest true := by
  have hzero : (m.shortest.digits == 0) = false := by
    simpa using Magnitude.shortest_ne_zero_of_whole hmantissa hmost hwhole
  have hrange : (decide (0 ≤ m.shortest.leadingExponent) && decide (m.shortest.leadingExponent < 0)) = false := by
    rw [Bool.and_eq_false_iff, decide_eq_false_iff_not, decide_eq_false_iff_not]
    omega
  simp only [Style.magnitude, Style.exponent, hzero, hrange, Bool.or_false, Bool.false_eq_true, if_false]

theorem e_mem_magnitude {m : Magnitude} (hmantissa : m.mantissa < 1 <<< 53) (hmost : m.exponent ≤ 971)
    (hwhole : Number.exponentFrom ≤ m.whole) : 'e' ∈ Style.exponent.magnitude m := by
  rw [magnitude_eq_scientific hmantissa hmost hwhole]
  exact e_mem_scientific _ _

/-- The natural number that a finite number is: its whole part, if it has no fraction and no sign. Zero may have one. -/
theorem nat?_finite {n : Number} {negative : Bool} {m : Magnitude} (hread : n.reading = .finite negative m) :
    n.nat? = if m.isWhole = true ∧ (negative = true → m.whole = 0) then some m.whole else none := by
  unfold Number.nat? Number.integer?
  rw [hread]
  dsimp only
  by_cases hwhole : m.isWhole = true
  · rw [if_pos hwhole]
    cases negative with
    | false => simp [hwhole]
    | true =>
      cases hvalue : m.whole with
      | zero => simp [hwhole]
      | succ k =>
        have hsign : ¬ (m.isWhole = true ∧ (true = true → k + 1 = 0)) :=
          fun hboth => absurd (hboth.2 rfl) (Nat.succ_ne_zero k)
        rw [if_neg hsign]
        rfl
  · simp [hwhole]

/-- The index of a number is the one that its text names. -/
theorem keyIndex?_number (n : Number) :
    keyIndex? (.number n) (Text.bytesOf n.text) = nameIndex? (Text.bytesOf n.text) := by
  have hnone {c : Char} (hmem : c ∈ n.text.toList) (hascii : c.toNat < 128) (hc : Text.isDigit c = false)
      (hindex : n.nat?.filter (· ≤ maxArrayIndex) = none) :
      keyIndex? (.number n) (Text.bytesOf n.text) = nameIndex? (Text.bytesOf n.text) :=
    hindex.trans (nameIndex?_of_mem hmem hascii hc).symm
  cases hread : n.reading with
  | notANumber =>
    refine hnone (c := 'N') ?_ (by decide) (by decide) (by simp [Number.nat?, Number.integer?, hread])
    simp only [Number.text, hread]
    decide
  | infinite negative =>
    refine hnone (c := 'I') ?_ (by decide) (by decide) (by simp [Number.nat?, Number.integer?, hread])
    simp only [Number.text, hread]
    cases negative <;> decide
  | finite negative m =>
    obtain ⟨hmantissa, hmost⟩ := double_read_finite hread
    by_cases hlarge : Number.exponentFrom ≤ m.whole
    · refine hnone (c := 'e') ?_ (by decide) (by decide) ?_
      · simp only [Number.text, hread, if_pos hlarge, Style.write, String.toList_ofList]
        exact List.mem_append_right _ (e_mem_magnitude hmantissa hmost hlarge)
      · -- An index is smaller than the first number that is written so.
        have hbig : maxArrayIndex < m.whole := Nat.lt_of_lt_of_le (by decide) hlarge
        rw [nat?_finite hread]
        split_ifs
        · simp [hbig]
        · rfl
    · by_cases hwhole : m.isWhole = true
      · by_cases hsign : negative = true → m.whole = 0
        · have htext : n.text = String.ofList (digitChars m.whole) := by
            have hplain : (negative && m.whole != 0) = false := by
              cases negative with
              | false => rfl
              | true => simp [hsign rfl]
            simp only [Number.text, hread, if_neg hlarge, if_pos hwhole, hplain]
            exact String.empty_append
          rw [htext, nameIndex?_digitChars, keyIndex?, nat?_finite hread, if_pos ⟨hwhole, hsign⟩]
          simp [Option.filter]
        · have hminus : (negative && m.whole != 0) = true := by simpa using hsign
          refine hnone (c := '-') ?_ (by decide) (by decide) ?_
          · simp only [Number.text, hread, if_neg hlarge, if_pos hwhole, hminus, if_true, String.toList_append]
            exact List.mem_append_left _ (by decide)
          · rw [nat?_finite hread, if_neg fun hboth => hsign hboth.2]
            rfl
      · refine hnone (c := '.') ?_ (by decide) (by decide) (by simp [Number.nat?, Number.integer?, hread, hwhole])
        simp only [Number.text, hread, if_neg hlarge, if_neg hwhole, String.toList_append, String.toList_ofList]
        exact List.mem_append_right _ (point_mem_fixedPlaces m 5)

end ScriptEngine
