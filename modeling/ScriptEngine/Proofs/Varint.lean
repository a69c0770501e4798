import Mathlib.Algebra.Group.Nat.Defs
import Mathlib.Tactic.ByContra
import ScriptEngine.Varint
/-!
Reading back what was written.

A number of at most 64 bits fits ten groups (`length_le_maxLength`), and whatever width from its own
length up to ten it was written in, reading gives it back together with that width
(`decode_encodePadded`). The other way round, reading takes one to ten bytes, of which only the last
has its top bit clear (`HasNumber`), or there is no such row of bytes and it fails
(`decode_cases`); and as a number takes no fewer groups than it needs (`length_le_of_decode`),
no other width can be read back (`decode_padded_iff`).
-/

namespace ScriptEngine.Varint

theorem length_of_lt {v : Nat} (h : v < 128) : length v = 1 := by
  unfold length
  rw [if_pos h]

theorem length_div {v : Nat} (h : 128 ≤ v) : length v = length (v / 128) + 1 := by
  rw [length, if_neg (by omega)]

/-- A number below the `width`th power of 128 needs no more than `width` groups. -/
theorem length_le {width : Nat} (hpos : 0 < width) {v : Nat} (h : v < Nat.pow 128 width) :
    length v ≤ width := by
  induction width generalizing v with
  | zero => omega
  | succ width ih =>
    by_cases hsmall : v < 128
    · rw [length_of_lt hsmall]
      omega
    · rw [length_div (by omega)]
      have hstep : Nat.pow 128 (width + 1) = Nat.pow 128 width * 128 := rfl
      have hdiv : v / 128 < Nat.pow 128 width := Nat.div_lt_of_lt_mul (by omega)
      have hwidth : 0 < width := by
        rcases width with _ | width
        · have hone : Nat.pow 128 0 = 1 := rfl
          omega
        · omega
      have := ih hwidth hdiv
      omega

theorem length_le_maxLength {v : Nat} (h : v < UInt64.size) : length v ≤ maxLength := by
  refine length_le (by decide) (Nat.lt_trans h ?_)
  decide

theorem length_mono {v w : Nat} (h : v ≤ w) : length v ≤ length w := by
  induction w using Nat.strongRecOn generalizing v with
  | ind w ih =>
    by_cases hv : v < 128
    · rw [length_of_lt hv]
      exact length_pos w
    · rw [length_div (by omega), length_div (v := w) (by omega)]
      have := ih (w / 128) (by omega) (Nat.div_le_div_right (c := 128) h)
      omega

theorem decodeGroups_encodePadded {v width groups : Nat} (hlength : length v ≤ width)
    (hgroups : width ≤ groups) (rest : List UInt8) :
    decodeGroups groups (encodePadded v width ++ rest) = some (v, width) := by
  induction width generalizing v groups with
  | zero =>
    have := length_pos v
    omega
  | succ width ih =>
    obtain ⟨groups, rfl⟩ : ∃ g, groups = g + 1 := ⟨groups - 1, by omega⟩
    rcases width with _ | width
    · have hsmall : v < 128 := by
        by_contra hge
        rw [length_div (by omega)] at hlength
        have := length_pos (v / 128)
        omega
      have hbyte : (UInt8.ofNat (v % 128)).toNat = v := by
        rw [UInt8.toNat_ofNat']
        omega
      rw [encodePadded, List.singleton_append, decodeGroups, if_pos, hbyte]
      rw [UInt8.lt_iff_toNat_lt, hbyte]
      exact hsmall
    · have hbyte : (UInt8.ofNat (v % 128 + 128)).toNat = v % 128 + 128 := by
        rw [UInt8.toNat_ofNat']
        omega
      have hrest : length (v / 128) ≤ width + 1 := by
        by_cases hsmall : v < 128
        · rw [Nat.div_eq_of_lt hsmall, length_of_lt (by decide)]
          omega
        · rw [length_div (by omega)] at hlength
          omega
      rw [encodePadded, List.cons_append, decodeGroups, if_neg, ih hrest (by omega), hbyte]
      · simp only [Option.map_some, Option.some.injEq, Prod.mk.injEq, and_true]
        omega
      · rw [UInt8.lt_iff_toNat_lt, hbyte]
        have : (128 : UInt8).toNat = 128 := rfl
        omega

/-- What was written in a width is read back, whatever follows. -/
theorem decode_encodePadded {v width : Nat} (hlength : length v ≤ width) (hwidth : width ≤ maxLength)
    (hsize : v < UInt64.size) (rest : List UInt8) :
    decode (encodePadded v width ++ rest) = some (v, width) := by
  rw [decode, decodeGroups_encodePadded hlength hwidth, Option.map_some]
  simp only [Nat.mod_eq_of_lt hsize]

theorem decode_encode {v : Nat} (h : v < UInt64.size) (rest : List UInt8) :
    decode (encode v ++ rest) = some (v, length v) :=
  decode_encodePadded (Nat.le_refl _) (length_le_maxLength h) h rest

/-! ## What reading takes -/

/-- A number of `used` bytes stands at the start of `bytes`: the top bit is set in all of them but
the last. -/
def HasNumber (bytes : List UInt8) (used : Nat) : Prop :=
  ∃ groups last rest, bytes = groups ++ last :: rest ∧ (∀ group ∈ groups, 128 ≤ group) ∧
    last < 128 ∧ used = groups.length + 1

theorem HasNumber.pos {bytes : List UInt8} {used : Nat} (h : HasNumber bytes used) : 0 < used := by
  obtain ⟨groups, last, rest, -, -, -, rfl⟩ := h
  exact Nat.succ_pos _

theorem not_hasNumber_nil (used : Nat) : ¬ HasNumber [] used := by
  rintro ⟨groups, last, rest, hbytes, -⟩
  simp at hbytes

theorem hasNumber_last {b : UInt8} (h : b < 128) (rest : List UInt8) {used : Nat} :
    HasNumber (b :: rest) used ↔ used = 1 := by
  constructor
  · rintro ⟨groups, last, behind, hbytes, hgroups, -, rfl⟩
    rcases groups with _ | ⟨group, groups⟩
    · rfl
    · obtain ⟨rfl, -⟩ := List.cons.inj hbytes
      exact absurd h (UInt8.not_lt.mpr (hgroups b List.mem_cons_self))
  · rintro rfl
    exact ⟨[], b, rest, rfl, nofun, h, rfl⟩

theorem hasNumber_cons {b : UInt8} (h : ¬ b < 128) (rest : List UInt8) {used : Nat} :
    HasNumber (b :: rest) (used + 1) ↔ HasNumber rest used := by
  constructor
  · rintro ⟨groups, last, behind, hbytes, hgroups, hlast, hused⟩
    rcases groups with _ | ⟨group, groups⟩
    · obtain ⟨rfl, -⟩ := List.cons.inj hbytes
      exact absurd hlast h
    · obtain ⟨rfl, hrest⟩ := List.cons.inj hbytes
      exact ⟨groups, last, behind, hrest, fun g hg => hgroups g (List.mem_cons_of_mem b hg), hlast,
        Nat.succ.inj hused⟩
  · rintro ⟨groups, last, behind, rfl, hgroups, hlast, rfl⟩
    refine ⟨b :: groups, last, behind, rfl, ?_, hlast, rfl⟩
    rintro g (_ | ⟨_, hg⟩)
    · exact UInt8.not_lt.mp h
    · exact hgroups g hg

/-- Reading finds the number that stands in front, unless it is longer than the groups it may
take. -/
theorem decodeGroups_cases (groups : Nat) (bytes : List UInt8) :
    (decodeGroups groups bytes = none ∧ ∀ used, used ≤ groups → ¬ HasNumber bytes used) ∨
      ∃ v used, decodeGroups groups bytes = some (v, used) ∧ HasNumber bytes used ∧
        used ≤ groups ∧ v < 128 ^ used := by
  induction groups generalizing bytes with
  | zero =>
    refine .inl ⟨rfl, fun used hused hnumber => ?_⟩
    have := hnumber.pos
    omega
  | succ groups ih =>
    rcases bytes with _ | ⟨b, rest⟩
    · exact .inl ⟨rfl, fun used _ => not_hasNumber_nil used⟩
    by_cases hb : b < 128
    · refine .inr ⟨b.toNat, 1, ?_, (hasNumber_last hb rest).mpr rfl, by omega, ?_⟩
      · rw [decodeGroups, if_pos hb]
      · exact UInt8.lt_iff_toNat_lt.mp hb
    rw [decodeGroups, if_neg hb]
    obtain ⟨hread, hnone⟩ | ⟨v, used, hread, hnumber, hused, hv⟩ := ih rest
    · refine .inl ⟨by rw [hread, Option.map_none], fun used hused hnumber => ?_⟩
      obtain ⟨used, rfl⟩ : ∃ u, used = u + 1 := ⟨used - 1, by have := hnumber.pos; omega⟩
      exact hnone used (by omega) ((hasNumber_cons hb rest).mp hnumber)
    · refine .inr ⟨_, used + 1, by rw [hread, Option.map_some], (hasNumber_cons hb rest).mpr hnumber,
        by omega, ?_⟩
      have hbyte : b.toNat < 256 := b.toNat_lt
      rw [Nat.pow_succ]
      omega

/-- Reading fails, and no number of at most ten bytes stands in front, or it gives a number of 64
bits and takes one. -/
theorem decode_cases (bytes : List UInt8) :
    (decode bytes = none ∧ ∀ used, used ≤ maxLength → ¬ HasNumber bytes used) ∨
      ∃ v used, decode bytes = some (v, used) ∧ HasNumber bytes used ∧ used ≤ maxLength ∧
        v < UInt64.size ∧ v < 128 ^ used := by
  rw [decode]
  obtain ⟨hread, hnone⟩ | ⟨v, used, hread, hnumber, hused, hv⟩ := decodeGroups_cases maxLength bytes
  · exact .inl ⟨by rw [hread, Option.map_none], hnone⟩
  · exact .inr ⟨_, used, by rw [hread, Option.map_some], hnumber, hused, Nat.mod_lt _ (by decide),
      Nat.lt_of_le_of_lt (Nat.mod_le _ _) hv⟩

/-- A number is never read from fewer bytes than it needs. -/
theorem length_le_of_decode {bytes : List UInt8} {v used : Nat} (h : decode bytes = some (v, used)) :
    length v ≤ used := by
  obtain ⟨hnone, -⟩ | ⟨_, _, hread, hnumber, -, -, hv⟩ := decode_cases bytes
  · rw [hnone] at h
    nomatch h
  · rw [hread] at h
    cases h
    exact length_le hnumber.pos hv

/-- The widths that a number can be read back from are those from its own length up to ten. -/
theorem decode_padded_iff {v : Nat} (hsize : v < UInt64.size) (width : Nat) (rest : List UInt8) :
    decode (encodePadded v width ++ rest) = some (v, width) ↔
      length v ≤ width ∧ width ≤ maxLength := by
  constructor
  · intro h
    refine ⟨length_le_of_decode h, ?_⟩
    obtain ⟨hnone, -⟩ | ⟨_, _, hread, -, hused, -⟩ := decode_cases (encodePadded v width ++ rest)
    · rw [hnone] at h
      nomatch h
    · rw [hread] at h
      cases h
      exact hused
  · rintro ⟨hlength, hwidth⟩
    exact decode_encodePadded hlength hwidth hsize rest

/-- Numbers of 64 bits are written and read back at every width that can hold them: such a width is
there, a number fills the width it is written in, and whatever follows, reading gives back the
number and the width exactly from the number's own length up to ten. From any bytes at all, reading
takes one to ten of them, all but the last with the top bit set, or it fails since there are none
such. -/
theorem round_trip_at_every_width (v : UInt64) :
    (length v.toNat ≤ maxLength ∧ ∀ width rest,
      (encodePadded v.toNat width).length = width ∧
      (decode (encodePadded v.toNat width ++ rest) = some (v.toNat, width) ↔
        length v.toNat ≤ width ∧ width ≤ maxLength)) ∧
    ∀ bytes,
      (decode bytes = none ∧ ¬ ∃ used, used ≤ maxLength ∧ HasNumber bytes used) ∨
      ∃ n used, decode bytes = some (n, used) ∧ n < UInt64.size ∧
        1 ≤ used ∧ used ≤ maxLength ∧ HasNumber bytes used := by
  refine ⟨⟨length_le_maxLength v.toNat_lt, fun width rest => ?_⟩, fun bytes => ?_⟩
  · exact ⟨length_encodePadded _ _, decode_padded_iff v.toNat_lt width rest⟩
  · obtain ⟨hread, hnone⟩ | ⟨n, used, hread, hnumber, hused, hsize, -⟩ := decode_cases bytes
    · exact .inl ⟨hread, fun ⟨used, hused, hnumber⟩ => hnone used hused hnumber⟩
    · exact .inr ⟨n, used, hread, hsize, hnumber.pos, hused, hnumber⟩

end ScriptEngine.Varint
