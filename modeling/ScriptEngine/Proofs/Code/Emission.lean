import ScriptEngine.Proofs.Code.Layout
import ScriptEngine.Proofs.Code.Lines
/-!
Writing code at a cursor.

An emitter is `At` a place when the bytes in front of the cursor and those behind it are known, each with
its line. Every write says what it puts in front of the cursor (`write_at`, `instr_at`), moving the
cursor changes nothing (`seek_at`), and a patch puts the operand in place of the placeholder, wherever
between the code in front of it and the cursor that stands (`patch_at`). A placeholder without bytes is
no exception: it stands where the code around it meets.
-/

namespace ScriptEngine.Code

/-- A byte of the code with its line. -/
abbrev Cell := UInt8 × Nat

/-- Bytes of one line. -/
def onLine (line : Nat) (bytes : List UInt8) : List Cell :=
  bytes.map fun b => (b, line)

@[simp] theorem length_onLine (line : Nat) (bytes : List UInt8) :
    (onLine line bytes).length = bytes.length := by
  simp [onLine]

@[simp] theorem onLine_nil (line : Nat) : onLine line [] = [] := rfl

theorem onLine_append (line : Nat) (bs bs' : List UInt8) :
    onLine line (bs ++ bs') = onLine line bs ++ onLine line bs' := by
  simp [onLine]

theorem onLine_cons (line : Nat) (b : UInt8) (bytes : List UInt8) :
    onLine line (b :: bytes) = (b, line) :: onLine line bytes := rfl

@[simp] theorem map_fst_onLine (line : Nat) (bytes : List UInt8) :
    (onLine line bytes).map Prod.fst = bytes := by
  simp [onLine, Function.comp_def]

@[simp] theorem map_snd_onLine (line : Nat) (bytes : List UInt8) :
    (onLine line bytes).map Prod.snd = List.replicate bytes.length line := by
  simp [onLine, Function.comp_def]

/-- The line of the last byte. -/
def lastLine (xs : List Cell) : Option Nat :=
  (xs.map Prod.snd).getLast?

/-- The line of the first byte. -/
def firstLine (ys : List Cell) : Option Nat :=
  (ys.map Prod.snd).head?

theorem lastLine_append_onLine (xs : List Cell) (line : Nat) {bytes : List UInt8} (h : bytes ≠ []) :
    lastLine (xs ++ onLine line bytes) = some line := by
  obtain ⟨n, hn⟩ : ∃ n, bytes.length = n + 1 :=
    ⟨bytes.length - 1, by have := List.length_pos_iff.mpr h; omega⟩
  simp [lastLine, hn, List.replicate_succ']

/-- An operation code and its placeholder. -/
def hole (line : Nat) (o : Op) (width : Nat) : List Cell :=
  onLine line (o.toByte :: List.replicate width 0)

@[simp] theorem length_hole (line : Nat) (o : Op) (width : Nat) :
    (hole line o width).length = width + 1 := by
  simp [hole]

theorem hole_eq (line : Nat) (o : Op) (width : Nat) :
    hole line o width = onLine line [o.toByte] ++ onLine line (List.replicate width 0) := rfl

theorem lastLine_append_hole (xs : List Cell) (line : Nat) (o : Op) (width : Nat) :
    lastLine (xs ++ hole line o width) = some line :=
  lastLine_append_onLine xs line (by simp)

theorem lastLine_append_replicate {xs : List Cell} {line : Nat} (h : lastLine xs = some line)
    (n : Nat) (b : UInt8) : lastLine (xs ++ onLine line (List.replicate n b)) = some line := by
  cases n with
  | zero => simpa using h
  | succ n => exact lastLine_append_onLine xs line (by simp)

/-- A second write of the same line goes where the first one went. -/
theorem placedLine_placedLine (before behind : Option Nat) (line : Nat) :
    LineLog.placedLine (some (LineLog.placedLine before behind line)) behind line
      = LineLog.placedLine before behind line := by
  unfold LineLog.placedLine
  split <;> rfl

namespace Emitter

/-- The code in front of the cursor and the code behind it. -/
structure At (e : Emitter) (xs ys : List Cell) : Prop where
  code : e.code.data.toList = (xs ++ ys).map Prod.fst
  cursor : e.cursor = xs.length
  lines : e.lines.Covers ((xs ++ ys).map Prod.snd)
  /-- Nothing is put in front of all code. -/
  front : ys ≠ [] → xs ≠ []

theorem empty_at (width : Nat) : (Emitter.empty width).At [] [] :=
  ⟨rfl, rfl, LineLog.covers_nil, fun h => h⟩

theorem At.size {e : Emitter} {xs ys : List Cell} (h : e.At xs ys) :
    e.code.size = xs.length + ys.length := by
  have hsize : e.code.data.toList.length = e.code.size := rfl
  rw [← hsize, h.code]
  simp

/-- A write puts its bytes in front of the cursor. -/
theorem write_at {e : Emitter} {xs ys : List Cell} (h : e.At xs ys) (line : Nat) (bytes : List UInt8) :
    (e.write line bytes).At
      (xs ++ onLine (LineLog.placedLine (lastLine xs) (firstLine ys) line) bytes) ys := by
  unfold write
  split
  case isTrue hempty =>
    obtain rfl : bytes = [] := by simpa using hempty
    rw [onLine_nil, List.append_nil]
    exact h
  case isFalse hne =>
    have hne : bytes ≠ [] := by simpa using hne
    have hlines := h.lines
    rw [List.map_append] at hlines
    refine ⟨?_, ?_, ?_, ?_⟩
    · show (Buffer.splice _ _ _ _).data.toList = _
      rw [h.cursor, Buffer.toList_splice _ _ _ _ (Nat.le_refl _) (by rw [h.size]; omega) (by omega),
        h.code, List.map_append, List.take_left' (by simp), List.drop_left' (by simp)]
      simp
    · show e.cursor + bytes.length = _
      rw [h.cursor]
      simp
    · have hnoted := covers_noteLine hlines (by rw [h.cursor, List.length_map])
        (by rw [h.size, List.length_map, List.length_map]) (by simpa using h.front) line
        (List.length_pos_iff.mpr hne)
      simpa [lastLine, firstLine] using hnoted
    · intro _ hnil
      simp [onLine, hne] at hnil

/-- An instruction is put in front of the cursor, all of it on one line. -/
theorem instr_at {e : Emitter} {xs ys : List Cell} (h : e.At xs ys) (line : Nat) (i : Instr) :
    (e.instr line i).At
      (xs ++ onLine (LineLog.placedLine (lastLine xs) (firstLine ys) line) i.encode) ys := by
  have hpieces : ∀ (pieces : List (List UInt8)) (e : Emitter) (xs : List Cell), e.At xs ys →
      (pieces.foldl (fun e bytes => e.write line bytes) e).At
        (xs ++ onLine (LineLog.placedLine (lastLine xs) (firstLine ys) line) pieces.flatten) ys := by
    intro pieces
    induction pieces with
    | nil =>
      intro e xs h
      simpa using h
    | cons piece pieces ih =>
      intro e xs h
      have hrest := ih _ _ (write_at h line piece)
      rw [List.flatten_cons, onLine_append, ← List.append_assoc]
      by_cases hpiece : piece = []
      · subst hpiece
        simpa using hrest
      · rwa [lastLine_append_onLine _ _ hpiece, placedLine_placedLine] at hrest
  exact hpieces i.pieces e xs h

theorem op_at {e : Emitter} {xs ys : List Cell} (h : e.At xs ys) (line : Nat) (o : Op) :
    (e.op line o).At
      (xs ++ onLine (LineLog.placedLine (lastLine xs) (firstLine ys) line) [o.toByte]) ys :=
  write_at h line [o.toByte]

theorem placeholder_at {e : Emitter} {xs ys : List Cell} (h : e.At xs ys) (line : Nat) :
    (e.placeholder line).At
      (xs ++ onLine (LineLog.placedLine (lastLine xs) (firstLine ys) line)
        (List.replicate e.width 0)) ys :=
  write_at h line (List.replicate e.width 0)

theorem seek_at {e : Emitter} {xs ys xs' ys' : List Cell} (h : e.At xs ys)
    (hsplit : xs ++ ys = xs' ++ ys') (hfront : ys' ≠ [] → xs' ≠ []) {position : Nat}
    (hposition : position = xs'.length) : (e.seek position).At xs' ys' :=
  ⟨by rw [← hsplit]; exact h.code, hposition, by rw [← hsplit]; exact h.lines, hfront⟩

/-- A patch puts the operand in place of the placeholder and says how much longer it is. -/
theorem patch_at {e : Emitter} {pre mid ys : List Cell} {line : Nat}
    (h : e.At (pre ++ onLine line (List.replicate e.width 0) ++ mid) ys)
    (hline : lastLine pre = some line) (target : Nat) :
    (e.patch pre.length target).1.At
        (pre ++ onLine line (operand e.width (target - (pre.length + e.width))) ++ mid) ys
      ∧ (e.patch pre.length target).2 = ⟨pre.length + e.width,
          (operand e.width (target - (pre.length + e.width))).length - e.width⟩ := by
  have hpre : pre ≠ [] := by
    rintro rfl
    cases hline
  have hsize := h.size
  have hwidth := length_operand e.width (target - (pre.length + e.width))
  simp only [List.length_append, length_onLine, List.length_replicate] at hsize
  refine ⟨⟨?_, ?_, ?_, ?_⟩, ?_⟩
  · show (Buffer.splice e.code pre.length (pre.length + e.width)
      (operand e.width (target - (pre.length + e.width)))).data.toList = _
    rw [Buffer.toList_splice _ _ _ _ (by omega) (by omega) (by omega), h.code]
    simp only [List.map_append, map_fst_onLine, List.append_assoc]
    rw [List.take_left' (by simp)]
    congr 2
    rw [← List.append_assoc, List.drop_left' (by simp)]
  · show (if pre.length + e.width ≤ e.cursor then _ else _) = _
    rw [h.cursor]
    simp only [List.length_append, length_onLine, List.length_replicate]
    rw [if_pos (by omega), hwidth]
    omega
  · -- The operand is the placeholder and the bytes that were spliced in, all on one line.
    have hlines := h.lines
    simp only [List.map_append, map_snd_onLine, List.length_replicate, List.append_assoc] at hlines
    obtain ⟨growth, hgrowth⟩ : ∃ growth,
        (operand e.width (target - (pre.length + e.width))).length = e.width + growth :=
      ⟨max (Varint.length (target - (pre.length + e.width))) e.width - e.width, by omega⟩
    have hnoted : (e.patch pre.length target).1.lines
        = if growth = 0 then e.lines else e.lines.shift (pre.length + e.width) growth := by
      have hexpect : growth = max (Varint.length (target - (pre.length + e.width))) e.width - e.width := by
        omega
      rw [hexpect]
      rfl
    rw [hnoted]
    simp only [List.map_append, map_snd_onLine, hgrowth, List.append_assoc]
    have hlast : ((pre.map Prod.snd) ++ List.replicate e.width line).getLast? = some line := by
      rw [List.getLast?_append, show (pre.map Prod.snd).getLast? = some line from hline]
      cases e.width <;> simp [List.replicate_succ']
    rw [← List.append_assoc] at hlines
    have hshift := hlines.shift hlast growth
    simp only [List.length_append, List.length_map, List.length_replicate] at hshift
    split
    case isTrue hzero =>
      subst hzero
      simpa using hlines
    case isFalse =>
      rw [← List.replicate_append_replicate]
      simpa using hshift
  · intro _ hnil
    simp [hpre] at hnil
  · show (⟨pre.length + e.width,
      max (Varint.length (target - (pre.length + e.width))) e.width - e.width⟩ : Patch) = _
    rw [hwidth]

@[simp] theorem width_write (e : Emitter) (line : Nat) (bytes : List UInt8) :
    (e.write line bytes).width = e.width := by
  unfold write
  split <;> rfl

@[simp] theorem width_instr (e : Emitter) (line : Nat) (i : Instr) :
    (e.instr line i).width = e.width := by
  have hpieces : ∀ (pieces : List (List UInt8)) (e : Emitter),
      (pieces.foldl (fun e bytes => e.write line bytes) e).width = e.width := by
    intro pieces
    induction pieces with
    | nil => intro e; rfl
    | cons piece pieces ih =>
      intro e
      rw [List.foldl_cons, ih, width_write]
  exact hpieces i.pieces e

@[simp] theorem width_op (e : Emitter) (line : Nat) (o : Op) : (e.op line o).width = e.width :=
  width_write e line [o.toByte]

@[simp] theorem width_placeholder (e : Emitter) (line : Nat) :
    (e.placeholder line).width = e.width :=
  width_write e line _

@[simp] theorem width_seek (e : Emitter) (position : Nat) : (e.seek position).width = e.width := rfl

@[simp] theorem width_patch (e : Emitter) (position target : Nat) :
    (e.patch position target).1.width = e.width := rfl

@[simp] theorem width_jump (e : Emitter) (line : Nat) (o : Op) : (e.jump line o).width = e.width := by
  rw [jump, width_placeholder, width_op]

/-- A jump puts its operation code and its placeholder in front of the cursor. -/
theorem jump_at {e : Emitter} {xs ys : List Cell} (h : e.At xs ys) (line : Nat) (o : Op) :
    (e.jump line o).At
      (xs ++ hole (LineLog.placedLine (lastLine xs) (firstLine ys) line) o e.width) ys := by
  have hhole := placeholder_at (op_at h line o) line
  rw [lastLine_append_onLine _ _ (by simp), placedLine_placedLine, width_op] at hhole
  rwa [hole_eq, ← List.append_assoc]

/-- A patched placeholder is the operand of its distance, and everything else stays as it was. -/
theorem patch_placeholder_at {e : Emitter} {zs ys : List Cell} (h : e.At zs ys) {w : Nat}
    (hw : e.width = w) {pre mid : List Cell} {line d position target : Nat}
    (hzs : zs = pre ++ onLine line (List.replicate w 0) ++ mid) (hline : lastLine pre = some line)
    (hposition : position = pre.length) (htarget : target = pre.length + w + d) :
    (e.patch position target).1.At (pre ++ onLine line (operand w d) ++ mid) ys
      ∧ (e.patch position target).2 = ⟨pre.length + w, (operand w d).length - w⟩ := by
  subst hw hzs hposition htarget
  have hpatch := patch_at h hline (pre.length + e.width + d)
  rwa [Nat.add_sub_cancel_left] at hpatch

/-- A patched jump has its distance, and everything else stays as it was. -/
theorem patch_hole_at {e : Emitter} {zs ys : List Cell} (h : e.At zs ys) {w : Nat} (hw : e.width = w)
    {xs mid : List Cell} {line d position target : Nat} {o : Op} (hzs : zs = xs ++ hole line o w ++ mid)
    (hposition : position = xs.length + 1) (htarget : target = xs.length + 1 + w + d) :
    (e.patch position target).1.At (xs ++ onLine line (o.toByte :: operand w d) ++ mid) ys
      ∧ (e.patch position target).2 = ⟨xs.length + 1 + w, (operand w d).length - w⟩ := by
  have hlength : (xs ++ onLine line [o.toByte]).length = xs.length + 1 := by simp
  have htarget' : target = (xs ++ onLine line [o.toByte]).length + w + d := by rw [hlength, htarget]
  have hpatch := patch_placeholder_at h hw (by rw [hzs, hole_eq, ← List.append_assoc])
    (lastLine_append_onLine xs line (by simp)) (hposition.trans hlength.symm) htarget'
  rwa [hlength, List.append_assoc xs, ← onLine_append] at hpatch

end Emitter

end ScriptEngine.Code
