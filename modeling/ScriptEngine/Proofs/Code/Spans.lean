import ScriptEngine.Proofs.Code.Emission
import ScriptEngine.Proofs.Code.Ledger
/-!
What moves when bytes come in.

A place in the code lies before the cursor or not (`Spot.Before`), and a finished distance lies as a whole in
front of the cursor or behind it (`Span.Before`, `Span.Behind`), or in front of an open placeholder or behind it
(`Span.ClearOf`). Where that is so, what is written at the cursor and what a patch splices in leave the
distance inscribed in the code (`Span.Inscribed.pushed`, `Span.Inscribed.moved`), and what is inscribed is read
(`Span.Inscribed.reads`). Bytes that are written one behind the other push like one piece, and a patch within what was
written makes that longer (`Spot.pushed_pushed`, `Spot.moved_pushed`), so all that a construct does to a place
is to push it once.
-/

namespace ScriptEngine.Code

/-! ## Places -/

namespace Spot

variable {s : Spot} {point point' growth : Nat}

theorem Before.le (h : s.Before point) : s.position ≤ point := by
  rcases h with h | h <;> omega

theorem le_of_not_before (h : ¬ s.Before point) : point ≤ s.position := by
  by_contra hlt
  exact h (.inl (by omega))

theorem Before.mono (h : s.Before point) (hle : point ≤ point') : s.Before point' := by
  obtain h | ⟨h, hwritten⟩ := h
  · exact .inl (by omega)
  · by_cases heq : point = point'
    · exact .inr ⟨h.trans heq, hwritten⟩
    · exact .inl (by omega)

theorem before_waiting (point : Nat) : Before point ⟨point, false⟩ :=
  .inr ⟨rfl, rfl⟩

theorem not_before_of_lt (h : point < s.position) : ¬ s.Before point := by
  rintro (hlt | ⟨heq, -⟩) <;> omega

theorem pushed_of_before (h : s.Before point) : (s.pushed point growth).position = s.position := by
  rw [pushed, if_pos h]

theorem pushed_of_not_before (h : ¬ s.Before point) :
    s.pushed point growth = ⟨s.position + growth, s.written⟩ := by
  rw [pushed, if_neg h]

theorem pushed_of_lt (h : s.position < point) : s.pushed point growth = s := by
  rw [pushed, if_pos (.inl h)]
  have hne : ¬ s.position = point := by omega
  simp [hne]

/-- What is in front of the cursor is in front of what was written. -/
theorem Before.pushed (h : s.Before point) : (s.pushed point growth).Before (point + growth) := by
  have hposition : (s.pushed point growth).position = s.position := pushed_of_before h
  rcases Nat.eq_zero_or_pos growth with rfl | hpos
  · rw [Spot.pushed, if_pos h]
    simpa using h
  · exact .inl (by have := h.le; omega)

/-- What is behind the cursor stays behind it. -/
theorem not_before_pushed (h : ¬ s.Before point) :
    ¬ (s.pushed point growth).Before (point + growth) := by
  rw [pushed_of_not_before h]
  rintro (hlt | ⟨heq, hwritten⟩)
  · have := le_of_not_before h
    exact absurd hlt (by show ¬ s.position + growth < _; omega)
  · exact h (.inr ⟨by have heq : s.position + growth = point + growth := heq; omega, hwritten⟩)

/-- What is behind a point stays behind it when something is written at that point or further on. -/
theorem not_before_pushed_of_le (h : ¬ s.Before point) (hle : point ≤ point') :
    ¬ (s.pushed point' growth).Before point := by
  by_cases hbefore : s.Before point'
  · have hge := le_of_not_before h
    rw [pushed, if_pos hbefore]
    rintro (hlt | ⟨heq, hwritten⟩)
    · exact h (.inl hlt)
    · exact h (.inr ⟨heq, (Bool.or_eq_false_iff.mp hwritten).1⟩)
  · have hge := le_of_not_before hbefore
    rw [pushed_of_not_before hbefore]
    rintro (hlt | ⟨heq, hwritten⟩)
    · exact h (.inl (Nat.lt_of_le_of_lt (Nat.le_add_right _ _) hlt))
    · have heq : s.position + growth = point := heq
      exact h (.inr ⟨by omega, hwritten⟩)

/-- Bytes that are written one behind the other push like one piece. -/
theorem pushed_pushed (point a b : Nat) (s : Spot) :
    (s.pushed point a).pushed (point + a) b = s.pushed point (a + b) := by
  by_cases h : s.Before point
  · have hbefore : (s.pushed point a).Before (point + a) := h.pushed
    rw [pushed, if_pos hbefore, pushed, if_pos h, pushed, if_pos h]
    have hle := h.le
    have hat : (s.position = point ∧ 0 < a ∨ s.position = point + a ∧ 0 < b)
        ↔ (s.position = point ∧ 0 < a + b) := by omega
    simp only [Bool.or_assoc, ← Bool.decide_or, hat]
  · rw [pushed_of_not_before (not_before_pushed h), pushed_of_not_before h, pushed_of_not_before h]
    simp only [Nat.add_assoc]

/-- Bytes that are written twice at one point push like both, unless the place was waiting there. -/
theorem pushed_again (a b : Nat) (h : s.Before point → s.position < point) :
    (s.pushed point a).pushed point b = s.pushed point (a + b) := by
  by_cases hbefore : s.Before point
  · rw [pushed_of_lt (h hbefore), pushed_of_lt (h hbefore), pushed_of_lt (h hbefore)]
  · have hstill : ¬ (s.pushed point a).Before point := by
      rcases Nat.eq_zero_or_pos a with rfl | ha
      · exact not_before_pushed hbefore
      · rw [pushed_of_not_before hbefore]
        exact not_before_of_lt (by have := le_of_not_before hbefore; show _ < s.position + a; omega)
    rw [pushed_of_not_before hstill, pushed_of_not_before hbefore, pushed_of_not_before hbefore]
    simp only [Nat.add_assoc, Nat.add_comm a b]

theorem pushed_waiting (hpos : 0 < growth) :
    pushed point growth ⟨point, false⟩ = ⟨point, true⟩ := by
  rw [pushed, if_pos (before_waiting point)]
  simp [hpos]

theorem pushed_written (point growth : Nat) :
    pushed point growth ⟨point, true⟩ = ⟨point + growth, true⟩ := by
  refine pushed_of_not_before ?_
  rintro (hlt | ⟨-, hfalse⟩)
  · exact Nat.lt_irrefl _ hlt
  · nomatch hfalse

@[simp] theorem pushed_zero (point : Nat) (s : Spot) : s.pushed point 0 = s := by
  unfold pushed
  split <;> simp

/-- No place waits at the cursor behind what was written, if none waited there before or something was
written. -/
theorem lt_of_pushed_before (hstrict : s.Before point → s.position < point + growth)
    (h : (s.pushed point growth).Before (point + growth)) :
    (s.pushed point growth).position < point + growth := by
  by_cases hbefore : s.Before point
  · rw [pushed_of_before hbefore]
    exact hstrict hbefore
  · exact absurd h (not_before_pushed hbefore)

/-- A patch within what was written makes that longer. -/
theorem moved_pushed {p : Patch} {n : Nat} (s : Spot) (hpoint : point < p.position)
    (hle : p.position ≤ point + n) : (s.pushed point n).moved p = s.pushed point (n + p.growth) := by
  by_cases h : s.Before point
  · have hn : 0 < n := by omega
    have hle := h.le
    simp only [moved, Patch.moved, pushed, if_pos h]
    rw [if_neg (by omega)]
    simp [hn, Nat.lt_of_lt_of_le hn (Nat.le_add_right n p.growth)]
  · have hge := le_of_not_before h
    simp only [moved, Patch.moved, pushed_of_not_before h]
    rw [if_pos (by omega)]
    simp only [Nat.add_assoc]

/-! ### Patches -/

theorem Before.moved {p : Patch} (h : s.Before point) (hle : p.position ≤ point) :
    (s.moved p).Before (point + p.growth) := by
  unfold Spot.moved Patch.moved
  split
  · obtain hlt | ⟨heq, hwritten⟩ := h
    · exact .inl (Nat.add_lt_add_right hlt _)
    · exact .inr ⟨congrArg (· + p.growth) heq, hwritten⟩
  · exact .inl (show s.position < _ by omega)

theorem not_before_moved {p : Patch} (h : ¬ s.Before point) : ¬ (s.moved p).Before point := by
  have hge := le_of_not_before h
  unfold Spot.moved Patch.moved
  split
  · rintro (hlt | ⟨heq, hwritten⟩)
    · exact h (.inl (Nat.lt_of_le_of_lt (Nat.le_add_right _ _) hlt))
    · have heq : s.position + p.growth = point := heq
      exact h (.inr ⟨by omega, hwritten⟩)
  · exact h

theorem moved_of_not_before {p : Patch} (h : ¬ s.Before p.position) :
    s.moved p = ⟨s.position + p.growth, s.written⟩ := by
  rw [moved, Patch.moved, if_pos (le_of_not_before h)]

theorem not_before_moved_add {p : Patch} (h : ¬ s.Before point) (hle : p.position ≤ point) :
    ¬ (s.moved p).Before (point + p.growth) := by
  have hge := le_of_not_before h
  rw [moved, Patch.moved, if_pos (by omega)]
  have hpushed : ¬ (s.pushed point p.growth).Before (point + p.growth) := not_before_pushed h
  rwa [pushed_of_not_before h] at hpushed

theorem moved_of_lt {p : Patch} (h : s.position < p.position) : s.moved p = s := by
  rw [moved, Patch.moved, if_neg (by omega)]

end Spot

/-! ## Distances -/

/-- A piece of the code that ends in front of a point is still there when what is behind that point
changes. -/
theorem isPrefix_drop_front {bs code : List UInt8} {position start : Nat} (h : bs <+: code.drop position)
    (hend : position + bs.length ≤ start) (hstart : start ≤ code.length) (rest : List UInt8) :
    bs <+: (code.take start ++ rest).drop position := by
  rw [List.prefix_iff_eq_take] at h ⊢
  have hlength : start = (code.take start).length := by rw [List.length_take, Nat.min_eq_left hstart]
  calc bs = (code.drop position).take bs.length := h
    _ = (code.take (position + bs.length)).drop position := by
      rw [List.drop_take, Nat.add_sub_cancel_left]
    _ = ((code.take start ++ rest).take (position + bs.length)).drop position := by
      rw [List.take_append_of_le_length (by omega), List.take_take, Nat.min_eq_left (by omega)]
    _ = ((code.take start ++ rest).drop position).take bs.length := by
      rw [List.drop_take, Nat.add_sub_cancel_left]

/-- What stands behind a piece of the code moves with its length. -/
theorem drop_splice {code : List UInt8} (bytes : List UInt8) {start stop position : Nat}
    (hstart : start ≤ code.length) (hstop : stop ≤ position) :
    (code.take start ++ bytes ++ code.drop stop).drop (start + bytes.length + (position - stop))
      = code.drop position := by
  have hlength : (code.take start ++ bytes).length = start + bytes.length := by
    rw [List.length_append, List.length_take, Nat.min_eq_left hstart]
  rw [← hlength, List.drop_length_add_append, List.drop_drop, Nat.add_sub_cancel' hstop]

namespace Span

variable {s s' : Span} {point growth : Nat}

/-- A distance with everything that it spans is in front of the cursor. -/
def Before (point : Nat) (s : Span) : Prop :=
  s.operand + s.size ≤ point ∧ s.target.Before point

/-- A distance with everything that it spans is behind the cursor. -/
def Behind (point : Nat) (s : Span) : Prop :=
  point ≤ s.operand ∧ ¬ s.target.Before point

/-- A distance and a placeholder do not reach into each other. -/
def ClearOf (hole width : Nat) (s : Span) : Prop :=
  s.operand + s.size ≤ hole ∧ s.target.position < hole ∨ s.Behind (hole + width)

/-- The bytes of the number stand in the code, in a width that can be read. -/
def Inscribed (code : List UInt8) (s : Span) : Prop :=
  ∃ distance, s.Measures distance ∧ distance ≤ code.length ∧ Varint.length distance ≤ s.size ∧
    s.size ≤ max (Varint.length distance) Emitter.maxWidth ∧
    Varint.encodePadded distance s.size <+: code.drop s.operand

theorem Inscribed.size_pos {code : List UInt8} (h : s.Inscribed code) : 0 < s.size := by
  obtain ⟨distance, -, -, hlength, -⟩ := h
  exact Nat.lt_of_lt_of_le (Varint.length_pos distance) hlength

/-- What is inscribed is read. -/
theorem Inscribed.reads {code : ByteArray} (h : s.Inscribed code.data.toList) : s.Reads code := by
  intro hcode
  obtain ⟨distance, hmeasures, hle, hlength, hsize, hbytes⟩ := h
  have hdistance : distance < UInt64.size := Nat.lt_of_le_of_lt hle hcode
  refine ⟨distance, Spells.decodeAt hbytes hlength ?_ hdistance, hmeasures⟩
  exact Nat.le_trans hsize (length_operand_le (Nat.le_refl _) hdistance)

/-- A distance that has moved is inscribed in code that has its bytes where they are now. -/
theorem Inscribed.transfer {code code' : List UInt8} (h : s.Inscribed code)
    (hcode : code.length ≤ code'.length) (hsize : s'.size = s.size)
    (hmeasures : ∀ distance, s.Measures distance → s'.Measures distance)
    (hbytes : ∀ bs : List UInt8, bs.length = s.size → bs <+: code.drop s.operand →
      bs <+: code'.drop s'.operand) : s'.Inscribed code' := by
  obtain ⟨distance, hmeasured, hle, hlength, hwidth, hstands⟩ := h
  refine ⟨distance, hmeasures distance hmeasured, by omega, by omega, by omega, ?_⟩
  rw [hsize]
  exact hbytes _ (Varint.length_encodePadded _ _) hstands

theorem Measures.of_eq {distance : Nat} (h : s.Measures distance) (hdirection : s'.direction = s.direction)
    (hsize : s'.size = s.size) (hoperand : s'.operand = s.operand)
    (htarget : s'.target.position = s.target.position) : s'.Measures distance := by
  unfold Measures at h ⊢
  rwa [hdirection, hsize, hoperand, htarget]

theorem Measures.of_shift {distance : Nat} (h : s.Measures distance) (hdirection : s'.direction = s.direction)
    (hsize : s'.size = s.size) (hoperand : s'.operand = s.operand + growth)
    (htarget : s'.target.position = s.target.position + growth) : s'.Measures distance := by
  unfold Measures at h ⊢
  rw [hdirection, hsize, hoperand, htarget]
  cases hs : s.direction <;> simp only [hs] at h ⊢ <;> omega

/-! ### At the cursor -/

theorem Before.mono {point' : Nat} (h : s.Before point) (hle : point ≤ point') : s.Before point' :=
  ⟨Nat.le_trans h.1 hle, h.2.mono hle⟩

theorem Before.not_cutAt (h : s.Before point) : ¬ s.CutAt point := by
  have hoperand := h.1
  have htarget := h.2.le
  unfold CutAt
  omega

theorem Behind.not_cutAt (h : s.Behind point) : ¬ s.CutAt point := by
  have hoperand := h.1
  have htarget := Spot.le_of_not_before h.2
  unfold CutAt
  omega

theorem operand_pushed_of_before (h : s.Before point) (hpos : 0 < s.size) :
    (s.pushed point growth).operand = s.operand := by
  have hoperand := h.1
  exact if_neg (by omega)

theorem operand_pushed_of_behind (h : s.Behind point) :
    (s.pushed point growth).operand = s.operand + growth :=
  if_pos h.1

theorem Before.pushed (h : s.Before point) (hpos : 0 < s.size) :
    (s.pushed point growth).Before (point + growth) := by
  refine ⟨?_, h.2.pushed⟩
  rw [operand_pushed_of_before h hpos]
  exact Nat.le_trans h.1 (Nat.le_add_right _ _)

theorem Behind.pushed (h : s.Behind point) : (s.pushed point growth).Behind (point + growth) := by
  refine ⟨?_, Spot.not_before_pushed h.2⟩
  rw [operand_pushed_of_behind h]
  exact Nat.add_le_add_right h.1 _

theorem pushed_pushed (point a b : Nat) (s : Span) :
    (s.pushed point a).pushed (point + a) b = s.pushed point (a + b) := by
  simp only [Span.pushed, Spot.pushed_pushed, Span.mk.injEq, true_and, and_true]
  split <;> split <;> omega

@[simp] theorem pushed_zero (point : Nat) (s : Span) : s.pushed point 0 = s := by
  simp [Span.pushed]

/-- A distance in front of the cursor stays, one behind it moves, and both are still inscribed. -/
theorem Inscribed.pushed {code bytes : List UInt8} (h : s.Inscribed code)
    (hordered : s.Before point ∨ s.Behind point) (hpoint : point ≤ code.length) :
    (s.pushed point bytes.length).Inscribed (code.take point ++ bytes ++ code.drop point) := by
  have hcode : code.length ≤ (code.take point ++ bytes ++ code.drop point).length := by
    simp only [List.length_append, List.length_take, List.length_drop]
    omega
  obtain hbefore | hbehind := hordered
  · have hoperand : (s.pushed point bytes.length).operand = s.operand := operand_pushed_of_before hbefore h.size_pos
    refine h.transfer hcode rfl (fun d hd => hd.of_eq rfl rfl hoperand
      (Spot.pushed_of_before hbefore.2)) fun bs hbs hstands => ?_
    rw [hoperand, List.append_assoc]
    exact isPrefix_drop_front hstands (by have := hbefore.1; omega) hpoint _
  · have hoperand : (s.pushed point bytes.length).operand = s.operand + bytes.length := operand_pushed_of_behind hbehind
    refine h.transfer hcode rfl (fun d hd => hd.of_shift rfl rfl hoperand
      (congrArg Spot.position (Spot.pushed_of_not_before hbehind.2))) fun bs hbs hstands => ?_
    have hdrop := drop_splice bytes hpoint hbehind.1
    rw [hoperand, show s.operand + bytes.length = point + bytes.length + (s.operand - point) by
      have := hbehind.1; omega, hdrop]
    exact hstands

/-- What is written at the cursor leaves a distance clear of an open placeholder in front. -/
theorem ClearOf.pushed {hole width : Nat} (h : s.ClearOf hole width) (hpos : 0 < s.size)
    (hbelow : hole + width ≤ point) : (s.pushed point growth).ClearOf hole width := by
  obtain ⟨hoperand, htarget⟩ | ⟨hoperand, htarget⟩ := h
  · refine .inl ⟨?_, ?_⟩
    · rwa [show (s.pushed point growth).operand = s.operand from if_neg (by omega)]
    · show (s.target.pushed point growth).position < hole
      rwa [Spot.pushed_of_lt (by omega)]
  · refine .inr ⟨?_, ?_⟩
    · show _ ≤ if point ≤ s.operand then s.operand + growth else s.operand
      split <;> omega
    · exact Spot.not_before_pushed_of_le htarget hbelow

/-! ### Patches -/

variable {p : Patch}

/-- A patch leaves what ends in front of its placeholder. -/
theorem moved_of_front (hoperand : s.operand + s.size ≤ p.position) (hpos : 0 < s.size)
    (htarget : s.target.position < p.position) : s.moved p = s := by
  rw [Span.moved, Patch.moved, if_neg (by omega), Spot.moved_of_lt htarget]

/-- A patch moves what is behind its placeholder. -/
theorem Behind.moved_eq (h : s.Behind p.position) : s.moved p =
    { s with operand := s.operand + p.growth, target := ⟨s.target.position + p.growth, s.target.written⟩ } := by
  rw [Span.moved, Patch.moved, if_pos h.1, Spot.moved_of_not_before h.2]

theorem Before.moved (h : s.Before point) (hle : p.position ≤ point) :
    (s.moved p).Before (point + p.growth) := by
  refine ⟨?_, h.2.moved hle⟩
  have hoperand := h.1
  show p.moved s.operand + s.size ≤ _
  unfold Patch.moved
  split <;> omega

theorem Behind.moved (h : s.Behind point) (hle : p.position ≤ point) :
    (s.moved p).Behind (point + p.growth) := by
  refine ⟨?_, Spot.not_before_moved_add h.2 hle⟩
  have hoperand := h.1
  show _ ≤ p.moved s.operand
  rw [Patch.moved, if_pos (by omega)]
  omega

/-- A patch within what was written makes that longer. -/
theorem moved_pushed {n : Nat} (s : Span) (hpoint : point < p.position) (hle : p.position ≤ point + n) :
    (s.pushed point n).moved p = s.pushed point (n + p.growth) := by
  simp only [Span.moved, Span.pushed, Spot.moved_pushed s.target hpoint hle, Span.mk.injEq, true_and,
    and_true, Patch.moved]
  split <;> split <;> omega

/-- Where no distance waits for what is written, that moves everything behind it like a patch. -/
theorem pushed_eq_moved (hordered : s.Before point ∨ s.Behind point) (hpos : 0 < s.size)
    (hstrict : s.target.Before point → s.target.position < point) :
    s.pushed point growth = s.moved ⟨point, growth⟩ := by
  obtain hbefore | hbehind := hordered
  · rw [moved_of_front hbefore.1 hpos (hstrict hbefore.2), Span.pushed,
      Spot.pushed_of_lt (hstrict hbefore.2), if_neg (by have := hbefore.1; omega)]
  · rw [Behind.moved_eq hbehind, Span.pushed, if_pos hbehind.1, Spot.pushed_of_not_before hbehind.2]

theorem pushed_again (a b : Nat) (h : s.target.Before point → s.target.position < point) :
    (s.pushed point a).pushed point b = s.pushed point (a + b) := by
  simp only [Span.pushed, Spot.pushed_again a b h, Span.mk.injEq, true_and, and_true]
  by_cases hle : point ≤ s.operand
  · simp [hle, Nat.le_add_right_of_le hle, Nat.add_assoc]
  · simp [hle]

theorem ClearOf.not_cutAt {hole width : Nat} (h : s.ClearOf hole width) : ¬ s.CutAt (hole + width) := by
  obtain ⟨hoperand, htarget⟩ | hbehind := h
  · unfold CutAt
    omega
  · exact hbehind.not_cutAt

/-- A patch of one placeholder leaves a distance clear of one that is open in front of that. -/
theorem ClearOf.moved {hole width : Nat} (h : s.ClearOf hole width) (hpos : 0 < s.size)
    (hle : hole ≤ p.position) : (s.moved p).ClearOf hole width := by
  obtain ⟨hoperand, htarget⟩ | ⟨hoperand, htarget⟩ := h
  · rw [moved_of_front (by omega) hpos (by omega)]
    exact .inl ⟨hoperand, htarget⟩
  · refine .inr ⟨?_, Spot.not_before_moved htarget⟩
    show _ ≤ p.moved s.operand
    unfold Patch.moved
    split <;> omega

/-- What is clear of a placeholder is still inscribed when that is filled. -/
theorem Inscribed.moved {code bytes : List UInt8} {hole width : Nat} (h : s.Inscribed code)
    (hclear : s.ClearOf hole width) (hposition : p.position = hole + width)
    (hbytes : bytes.length = width + p.growth) (hcode : hole + width ≤ code.length) :
    (s.moved p).Inscribed (code.take hole ++ bytes ++ code.drop (hole + width)) := by
  have hgrows : code.length ≤ (code.take hole ++ bytes ++ code.drop (hole + width)).length := by
    simp only [List.length_append, List.length_take, List.length_drop]
    omega
  obtain ⟨hoperand, htarget⟩ | hbehind := hclear
  · rw [moved_of_front (by omega) h.size_pos (by omega)]
    refine h.transfer hgrows rfl (fun _ hd => hd) fun bs hbs hstands => ?_
    rw [List.append_assoc]
    exact isPrefix_drop_front hstands (by omega) (by omega) _
  · have hfront := hbehind.1
    rw [Behind.moved_eq (by rwa [hposition])]
    refine h.transfer hgrows rfl (fun d hd => hd.of_shift rfl rfl rfl rfl) fun bs hbs hstands => ?_
    have hdrop := drop_splice bytes (Nat.le_trans (Nat.le_add_right _ _) hcode) hfront
    rw [show s.operand + p.growth = hole + bytes.length + (s.operand - (hole + width)) by omega, hdrop]
    exact hstands

end Span

/-! ## The emitter -/

namespace Emitter

variable {e : Emitter}

theorem cursor_write (e : Emitter) (line : Nat) (bytes : List UInt8) :
    (e.write line bytes).cursor = e.cursor + bytes.length := by
  unfold write
  split
  case isTrue h =>
    obtain rfl : bytes = [] := by simpa using h
    rfl
  case isFalse => rfl

theorem toList_write (h : e.cursor ≤ e.code.size) (line : Nat) (bytes : List UInt8) :
    (e.write line bytes).code.data.toList
      = e.code.data.toList.take e.cursor ++ bytes ++ e.code.data.toList.drop e.cursor := by
  unfold write
  split
  case isTrue hempty =>
    obtain rfl : bytes = [] := by simpa using hempty
    rw [List.append_nil, List.take_append_drop]
  case isFalse => exact Buffer.toList_splice _ _ _ _ (Nat.le_refl _) h (Nat.le_add_right _ _)

/-- Filling a placeholder makes the code as much longer as the number is wider than the placeholder. -/
theorem growth_patch (e : Emitter) (position target : Nat) :
    (operand e.width (target - (position + e.width))).length
      = e.width + (e.patch position target).2.growth := by
  have hwidth := width_le_length_operand e.width (target - (position + e.width))
  rw [length_operand] at hwidth ⊢
  exact (Nat.add_sub_cancel' hwidth).symm

theorem toList_patch {position : Nat} (h : position + e.width ≤ e.code.size) (target : Nat) :
    (e.patch position target).1.code.data.toList
      = e.code.data.toList.take position ++ operand e.width (target - (position + e.width))
        ++ e.code.data.toList.drop (position + e.width) :=
  Buffer.toList_splice _ _ _ _ (Nat.le_add_right _ _) h
    (Nat.add_le_add_left (width_le_length_operand _ _) _)

theorem cursor_patch {position : Nat} (h : position + e.width ≤ e.cursor) (target : Nat) :
    (e.patch position target).1.cursor = e.cursor + (e.patch position target).2.growth :=
  if_pos h

/-- What was written stands where the cursor was. -/
theorem isPrefix_write (h : e.cursor ≤ e.code.size) (line : Nat) (bytes : List UInt8) :
    bytes <+: (e.write line bytes).code.data.toList.drop e.cursor := by
  have hfront : (e.code.data.toList.take e.cursor).length = e.cursor := by
    rw [List.length_take]
    exact Nat.min_eq_left h
  rw [toList_write h, List.append_assoc, List.drop_left' hfront]
  exact List.prefix_append _ _

theorem length_toList (e : Emitter) : e.code.data.toList.length = e.code.size := rfl

theorem Extends.refl (e : Emitter) : e.Extends e :=
  ⟨Nat.le_refl _, rfl, rfl⟩

theorem Extends.trans {e e' e'' : Emitter} (h : e.Extends e') (h' : e'.Extends e'') : e.Extends e'' := by
  obtain ⟨hcursor, hfront, hbehind⟩ := h
  obtain ⟨hcursor', hfront', hbehind'⟩ := h'
  refine ⟨Nat.le_trans hcursor hcursor', ?_, hbehind'.trans hbehind⟩
  calc e''.code.data.toList.take e.cursor
      = (e''.code.data.toList.take e'.cursor).take e.cursor := by
        rw [List.take_take, Nat.min_eq_left hcursor]
    _ = (e'.code.data.toList.take e'.cursor).take e.cursor := by rw [hfront']
    _ = e.code.data.toList.take e.cursor := by rw [List.take_take, Nat.min_eq_left hcursor, hfront]

theorem Extends.size_eq {e' : Emitter} (h : e.Extends e') (hcursor : e.cursor ≤ e.code.size)
    (hcursor' : e'.cursor ≤ e'.code.size) : e'.code.size + e.cursor = e.code.size + e'.cursor := by
  have hlength := congrArg List.length h.2.2
  simp only [List.length_drop, length_toList] at hlength
  omega

/-- A piece that is written in front of another one is between the same bytes as that. -/
theorem Extends.insert {e' e'' : Emitter} {n m : Nat} (h : e.Extends e') (h' : (e'.seek e.cursor).Extends e'')
    (hn : e'.cursor = e.cursor + n) (hm : e''.cursor = e.cursor + m) :
    e.Extends (e''.seek (e.cursor + (n + m))) := by
  obtain ⟨-, hfront, hbehind⟩ := h
  obtain ⟨-, hfront', hbehind'⟩ := h'
  refine ⟨Nat.le_add_right _ _, hfront'.trans hfront, ?_⟩
  calc e''.code.data.toList.drop (e.cursor + (n + m))
      = (e''.code.data.toList.drop e''.cursor).drop n := by
        rw [List.drop_drop, hm, Nat.add_right_comm, Nat.add_assoc]
    _ = (e'.code.data.toList.drop e.cursor).drop n := by rw [hbehind']; rfl
    _ = e.code.data.toList.drop e.cursor := by rw [List.drop_drop, ← hn, hbehind]

theorem extends_write (h : e.cursor ≤ e.code.size) (line : Nat) (bytes : List UInt8) :
    e.Extends (e.write line bytes) := by
  have hlength := e.length_toList
  have htake : (e.code.data.toList.take e.cursor).length = e.cursor := by
    rw [List.length_take, hlength, Nat.min_eq_left h]
  refine ⟨by rw [cursor_write]; exact Nat.le_add_right _ _, ?_, ?_⟩
  · rw [toList_write h, List.append_assoc, List.take_left' htake]
  · rw [toList_write h, cursor_write, List.drop_left' (by rw [List.length_append, htake])]

theorem Extends.patch {e' : Emitter} (h : e.Extends e') {position : Nat} (hfront : e.cursor ≤ position)
    (hbehind : position + e'.width ≤ e'.cursor) (hsize : e'.cursor ≤ e'.code.size) (target : Nat) :
    e.Extends (e'.patch position target).1 := by
  obtain ⟨hcursor, htake, hdrop⟩ := h
  have hlength := e'.length_toList
  refine ⟨?_, ?_, ?_⟩
  · rw [cursor_patch hbehind]
    exact Nat.le_trans hcursor (Nat.le_add_right _ _)
  · rw [toList_patch (Nat.le_trans hbehind hsize), List.append_assoc,
      List.take_append_of_le_length (by rw [List.length_take]; omega), List.take_take,
      Nat.min_eq_left hfront, htake]
  · have hwidth := width_le_length_operand e'.width (target - (position + e'.width))
    have hend : (e'.patch position target).1.cursor = position
        + (operand e'.width (target - (position + e'.width))).length
        + (e'.cursor - (position + e'.width)) := by
      rw [cursor_patch hbehind, growth_patch]
      omega
    rw [toList_patch (Nat.le_trans hbehind hsize), hend, drop_splice _ (by omega) hbehind, hdrop]

/-- A placeholder that is filled has the distance to its target. -/
theorem inscribed_filled {position target : Nat} {meant : Spot} (htarget : target = meant.position)
    (hle : position + e.width ≤ target) (hsize : target ≤ e.code.size) (hwidth : e.width ≤ maxWidth) :
    (Span.filled position e.width (e.patch position target).2 meant).Inscribed
      (e.patch position target).1.code.data.toList := by
  have hcode := toList_patch (Nat.le_trans hle hsize) target
  have hlength := length_operand e.width (target - (position + e.width))
  have hgrowth := growth_patch e position target
  refine ⟨target - (position + e.width), ?_, ?_, ?_, ?_, ?_⟩
  · show position + (e.width + (e.patch position target).2.growth) + _
      = (e.patch position target).2.moved meant.position
    rw [← htarget, show (e.patch position target).2.moved target = _ from if_pos hle]
    omega
  · have := e.length_toList
    rw [hcode]
    simp only [List.length_append, List.length_take, List.length_drop, hgrowth]
    omega
  · show _ ≤ e.width + (e.patch position target).2.growth
    omega
  · show e.width + (e.patch position target).2.growth ≤ _
    omega
  · have htake : (e.code.data.toList.take position).length = position := by
      rw [List.length_take, length_toList]
      omega
    show Varint.encodePadded _ (e.width + (e.patch position target).2.growth) <+: List.drop position _
    rw [← hgrowth, hlength, hcode, List.append_assoc, List.drop_left' htake]
    exact List.prefix_append _ _

/-- A placeholder that is filled ends in front of the cursor. -/
theorem before_filled {position target : Nat} {meant : Spot} (hbelow : position + e.width ≤ e.cursor)
    (hmeant : meant.Before e.cursor) :
    (Span.filled position e.width (e.patch position target).2 meant).Before
      (e.patch position target).1.cursor := by
  rw [cursor_patch hbelow]
  refine ⟨?_, hmeant.moved hbelow⟩
  show position + (e.width + (e.patch position target).2.growth) ≤ _
  omega

/-- A placeholder that is filled is clear of one that is open in front of it. -/
theorem clearOf_filled {position target hole : Nat} {meant : Spot} (htarget : target = meant.position)
    (hle : position + e.width ≤ target) (hfront : hole + e.width ≤ position) :
    (Span.filled position e.width (e.patch position target).2 meant).ClearOf hole e.width := by
  have hlength := length_operand e.width (target - (position + e.width))
  have hgrowth := growth_patch e position target
  have hpos := Varint.length_pos (target - (position + e.width))
  refine .inr ⟨hfront, Spot.not_before_of_lt ?_⟩
  show _ < (e.patch position target).2.moved meant.position
  rw [← htarget, show (e.patch position target).2.moved target = _ from if_pos hle]
  omega

end Emitter

end ScriptEngine.Code
