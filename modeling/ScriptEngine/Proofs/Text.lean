import Mathlib.Data.List.Basic
import ScriptEngine.Text.Utf8
/-!
Text that was spelled in UTF-8 is read back.

The bytes of a character are read as that character, whatever follows (`pieces_encode`), so the bytes of a text are
read as the text and nothing in it is replaced (`decodeLossy_bytesOf`).
-/

namespace ScriptEngine.Text

theorem toList_loop (bytes : ByteArray) (i : Nat) (read : List UInt8) :
    ByteArray.toList.loop bytes i read = read.reverse ++ bytes.data.toList.drop i := by
  fun_induction ByteArray.toList.loop bytes i read with
  | case1 i read hlt ih =>
    have hi : i < bytes.data.toList.length := by simpa using hlt
    have hget : bytes.get! i = bytes.data.toList[i] := by
      rw [ByteArray.get!, getElem!_pos bytes.data i hlt, Array.getElem_toList]
    rw [ih, List.drop_eq_getElem_cons hi, hget, List.reverse_cons, List.append_assoc, List.singleton_append]
  | case2 i read hge =>
    have hi : bytes.data.toList.length ≤ i := by simpa using hge
    rw [List.drop_eq_nil_of_le hi, List.append_nil]

/-- The bytes of a text are those of its characters, one behind the other. -/
theorem bytesOf_ofList (cs : List Char) : bytesOf (String.ofList cs) = cs.flatMap String.utf8EncodeChar := by
  rw [bytesOf, String.toUTF8, String.toByteArray_ofList, List.utf8Encode, ByteArray.toList, toList_loop,
    List.toList_data_toByteArray]
  rfl

namespace Utf8

/-- The range of the second byte, by the number that the first byte is. -/
theorem secondRange_eq (lead : UInt8) : secondRange lead
    = if 0xC2 ≤ lead.toNat ∧ lead.toNat ≤ 0xDF then some (0x80, 0xBF)
      else if lead.toNat = 0xE0 then some (0xA0, 0xBF)
      else if lead.toNat = 0xED then some (0x80, 0x9F)
      else if 0xE1 ≤ lead.toNat ∧ lead.toNat ≤ 0xEF then some (0x80, 0xBF)
      else if lead.toNat = 0xF0 then some (0x90, 0xBF)
      else if 0xF1 ≤ lead.toNat ∧ lead.toNat ≤ 0xF3 then some (0x80, 0xBF)
      else if lead.toNat = 0xF4 then some (0x80, 0x8F)
      else none := by
  simp [secondRange, UInt8.le_iff_toNat_le, ← UInt8.toNat_inj]

/-- A continuation byte carries six bits. -/
theorem continuations_cons (code count low : Nat) (hlow : low < 64) (rest : List UInt8) :
    continuations code (count + 1) (UInt8.ofNat (low + 128) :: rest) = continuations (code * 64 + low) count rest := by
  have hbyte : (UInt8.ofNat (low + 128)).toNat = low + 128 := by
    rw [UInt8.toNat_ofNat']
    omega
  have hcontinues : isContinuation (UInt8.ofNat (low + 128)) = true := by
    simp only [isContinuation, UInt8.le_iff_toNat_le, hbyte, Bool.and_eq_true, decide_eq_true_eq, UInt8.toNat_ofNat]
    omega
  have hbits : (low + 128) % 64 = low := by omega
  rw [continuations, if_pos hcontinues, hbyte, hbits]

/-- A first byte of more than one, with a second one in its range. -/
theorem next_cons {lead second : UInt8} {lo hi : UInt8} (hlead : 0x80 ≤ lead.toNat)
    (hrange : secondRange lead = some (lo, hi)) (hlo : lo.toNat ≤ second.toNat) (hhi : second.toNat ≤ hi.toNat)
    (rest : List UInt8) :
    next lead (second :: rest)
      = ((continuations (leadBits lead * 64 + second.toNat % 64) (extraBytes lead) rest).1.map Char.ofNat,
        (continuations (leadBits lead * 64 + second.toNat % 64) (extraBytes lead) rest).2) := by
  have hmore : ¬ lead < 0x80 := by
    rw [UInt8.lt_iff_toNat_lt]
    exact Nat.not_lt.mpr hlead
  have hinside : (lo ≤ second && second ≤ hi) = true := by
    rw [Bool.and_eq_true, decide_eq_true_eq, decide_eq_true_eq, UInt8.le_iff_toNat_le, UInt8.le_iff_toNat_le]
    exact ⟨hlo, hhi⟩
  unfold next
  simp only [if_neg hmore, hrange, hinside, if_true]

/-- How many continuation bytes follow the second byte, by the number that the first byte is. -/
theorem extraBytes_eq (lead : UInt8) :
    extraBytes lead = if lead.toNat < 0xE0 then 0 else if lead.toNat < 0xF0 then 1 else 2 := by
  simp [extraBytes, UInt8.lt_iff_toNat_lt]

/-- The bits that a first byte carries, by the number that it is. -/
theorem leadBits_eq (lead : UInt8) : leadBits lead
    = if lead.toNat < 0xE0 then lead.toNat % 32 else if lead.toNat < 0xF0 then lead.toNat % 16 else lead.toNat % 8 := by
  simp [leadBits, UInt8.lt_iff_toNat_lt]

/-- The number of a character lies outside of the surrogates. -/
theorem toNat_valid (c : Char) : c.toNat < 0xD800 ∨ 0xDFFF < c.toNat ∧ c.toNat < 0x110000 :=
  c.valid

/-- The bytes of a character are read as that character. -/
theorem pieces_encode (c : Char) (rest : List UInt8) :
    pieces (String.utf8EncodeChar c ++ rest) = some c :: pieces rest := by
  suffices hnext : ∃ lead tail, String.utf8EncodeChar c = lead :: tail ∧ next lead (tail ++ rest) = (some c, rest) by
    obtain ⟨lead, tail, hbytes, hnext⟩ := hnext
    rw [hbytes, List.cons_append, pieces, hnext]
  have hvalid := toNat_valid c
  have hchar : c.val.toNat = c.toNat := rfl
  unfold String.utf8EncodeChar
  rw [hchar]
  generalize hn : c.toNat = n at hvalid
  have hc : Char.ofNat n = c := hn ▸ Char.ofNat_toNat c
  have hbyte (k : Nat) (hk : k < 256) : (UInt8.ofNat k).toNat = k := by
    rw [UInt8.toNat_ofNat']
    omega
  dsimp only
  split_ifs with hone htwo hthree
  · refine ⟨_, _, rfl, ?_⟩
    have hlead := hbyte n (by omega)
    have hless : UInt8.ofNat n < 0x80 := by
      rw [UInt8.lt_iff_toNat_lt, hlead]
      exact Nat.lt_succ_of_le hone
    unfold next
    rw [if_pos hless, hlead, hc]
    rfl
  · refine ⟨_, _, rfl, ?_⟩
    have hlead := hbyte (n / 64 % 32 + 192) (by omega)
    have hsecond := hbyte (n % 64 + 128) (by omega)
    have hrange : secondRange (UInt8.ofNat (n / 64 % 32 + 192)) = some (0x80, 0xBF) := by
      rw [secondRange_eq, hlead, if_pos (by omega)]
    have hcode : (n / 64 % 32 + 192) % 32 * 64 + (n % 64 + 128) % 64 = n := by omega
    rw [List.singleton_append, next_cons (by omega) hrange (by rw [hsecond]; exact Nat.le_add_left _ _)
      (by rw [hsecond]; show _ ≤ 0xBF; omega), leadBits_eq, extraBytes_eq, hlead, hsecond, if_pos (by omega),
      if_pos (by omega), hcode]
    simp only [continuations, Option.map_some, hc]
  · refine ⟨_, _, rfl, ?_⟩
    have hlead := hbyte (n / 4096 % 16 + 224) (by omega)
    have hsecond := hbyte (n / 64 % 64 + 128) (by omega)
    obtain ⟨lo, hi, hrange, hlo, hhi⟩ : ∃ lo hi, secondRange (UInt8.ofNat (n / 4096 % 16 + 224)) = some (lo, hi)
        ∧ lo.toNat ≤ n / 64 % 64 + 128 ∧ n / 64 % 64 + 128 ≤ hi.toNat := by
      rw [secondRange_eq, hlead]
      split_ifs
      all_goals first | omega | refine ⟨_, _, rfl, ?_, ?_⟩ <;> (simp only [UInt8.toNat_ofNat]; omega)
    have hcode : ((n / 4096 % 16 + 224) % 16 * 64 + (n / 64 % 64 + 128) % 64) * 64 + n % 64 = n := by omega
    rw [List.cons_append, List.singleton_append, next_cons (by omega) hrange (by rw [hsecond]; exact hlo)
      (by rw [hsecond]; exact hhi), leadBits_eq, extraBytes_eq, hlead, hsecond, if_neg (by omega), if_pos (by omega),
      if_neg (by omega), if_pos (by omega), continuations_cons _ _ _ (by omega), hcode]
    simp only [continuations, Option.map_some, hc]
  · refine ⟨_, _, rfl, ?_⟩
    have hlead := hbyte (n / 262144 % 8 + 240) (by omega)
    have hsecond := hbyte (n / 4096 % 64 + 128) (by omega)
    obtain ⟨lo, hi, hrange, hlo, hhi⟩ : ∃ lo hi, secondRange (UInt8.ofNat (n / 262144 % 8 + 240)) = some (lo, hi)
        ∧ lo.toNat ≤ n / 4096 % 64 + 128 ∧ n / 4096 % 64 + 128 ≤ hi.toNat := by
      rw [secondRange_eq, hlead]
      split_ifs
      all_goals first | omega | refine ⟨_, _, rfl, ?_, ?_⟩ <;> (simp only [UInt8.toNat_ofNat]; omega)
    have hcode : (((n / 262144 % 8 + 240) % 8 * 64 + (n / 4096 % 64 + 128) % 64) * 64 + n / 64 % 64) * 64 + n % 64
        = n := by omega
    rw [List.cons_append, List.cons_append, List.singleton_append, next_cons (by omega) hrange
      (by rw [hsecond]; exact hlo) (by rw [hsecond]; exact hhi), leadBits_eq, extraBytes_eq, hlead, hsecond,
      if_neg (by omega), if_neg (by omega), if_neg (by omega), if_neg (by omega), continuations_cons _ _ _ (by omega),
      continuations_cons _ _ _ (by omega), hcode]
    simp only [continuations, Option.map_some, hc]

/-- The bytes of a text are read as the text. -/
theorem decodeLossy_bytesOf (s : String) : decodeLossy (bytesOf s) = s := by
  have hpieces (cs : List Char) : pieces (cs.flatMap String.utf8EncodeChar) = cs.map some := by
    induction cs with
    | nil => rw [List.flatMap_nil, pieces, List.map_nil]
    | cons c cs ih => rw [List.flatMap_cons, pieces_encode, ih, List.map_cons]
  obtain ⟨cs, rfl⟩ : ∃ cs, s = String.ofList cs := ⟨s.toList, String.ofList_toList.symm⟩
  rw [decodeLossy, bytesOf_ofList, hpieces, List.map_map]
  exact congrArg String.ofList (List.map_id cs)

end Utf8

end ScriptEngine.Text
