import ScriptEngine.Proofs.Code.Emission
import ScriptEngine.Proofs.Code.Marks
/-!
Pieces of code that are put together.

`Emits n f items marks` says that `f` writes the items at the cursor, whatever stands around it, and puts them
on the lines where the marks are placed between the lines around the cursor. `n` is how many items have to
stand in front of it; only the parameters of a function need any. There is one rule for each way in which code
is written: one instruction, one piece behind the other, a jump over a piece, a choice, a function, and
the two kinds of loop. The widths that placeholders were given are nowhere in the items.
-/

namespace ScriptEngine.Code

open Emitter LineLog

/-- The bytes of chunks with their lines. -/
def cellsOf (cs : List Chunk) : List Cell :=
  cs.flatMap fun c => onLine c.line c.bytes

@[simp] theorem cellsOf_nil : cellsOf [] = [] := rfl

@[simp] theorem cellsOf_cons (c : Chunk) (cs : List Chunk) :
    cellsOf (c :: cs) = onLine c.line c.bytes ++ cellsOf cs := rfl

@[simp] theorem cellsOf_append (cs ds : List Chunk) :
    cellsOf (cs ++ ds) = cellsOf cs ++ cellsOf ds := by
  simp [cellsOf]

@[simp] theorem length_cellsOf (cs : List Chunk) : (cellsOf cs).length = sizeOf cs := by
  induction cs with
  | nil => rfl
  | cons c cs ih => simp [ih]

theorem map_fst_cellsOf (cs : List Chunk) : (cellsOf cs).map Prod.fst = bytesOf cs := by
  induction cs with
  | nil => rfl
  | cons c cs ih => simp [ih]

/-- Where a chunk starts, its line is the line of the byte. -/
theorem line_placeIn {cs : List Chunk} {i : Nat} {c : Chunk} (hc : cs[i]? = some c) (hne : c.bytes ≠ []) :
    ((cellsOf cs).map Prod.snd)[placeIn cs i]? = some c.line := by
  have hsplit : cs = cs.take i ++ c :: cs.drop (i + 1) := by
    obtain ⟨hlt, hget⟩ := List.getElem?_eq_some_iff.mp hc
    rw [← hget, ← List.drop_eq_getElem_cons hlt, List.take_append_drop]
  obtain ⟨b, bytes, hbytes⟩ := List.exists_cons_of_ne_nil hne
  have hlength : ((cellsOf (cs.take i)).map Prod.snd).length = placeIn cs i := by
    rw [List.length_map, length_cellsOf]
    rfl
  conv_lhs => rw [hsplit, cellsOf_append, cellsOf_cons, List.map_append]
  rw [show placeIn (cs.take i ++ c :: cs.drop (i + 1)) i = placeIn cs i by rw [← hsplit],
    List.getElem?_append_right (by omega), hlength, Nat.sub_self, hbytes]
  rfl

/-- Chunks take bytes. -/
theorem LaidBehind.bytes_ne_nil {before cs : List Chunk} (h : LaidBehind before cs) :
    ∀ c ∈ cs, c.bytes ≠ [] := by
  induction cs generalizing before with
  | nil => simp
  | cons d cs ih =>
    intro c hc
    rcases List.mem_cons.mp hc with rfl | hc
    · exact List.length_pos_iff.mp h.1.length_pos
    · exact ih h.2 c hc

theorem lastLine_append_cellsOf (xs : List Cell) {cs : List Chunk} (h : ∀ c ∈ cs, c.bytes ≠ []) :
    lastLine (xs ++ cellsOf cs) = (cs.map Chunk.line).getLast?.or (lastLine xs) := by
  induction cs generalizing xs with
  | nil => simp
  | cons c cs ih =>
    rw [cellsOf_cons, ← List.append_assoc, ih _ fun d hd => h d (List.mem_cons_of_mem _ hd),
      lastLine_append_onLine _ _ (h c List.mem_cons_self), List.map_cons]
    cases hlast : (cs.map Chunk.line).getLast? with
    | none =>
      rw [List.getLast?_eq_none_iff.mp hlast]
      rfl
    | some line => simp [List.getLast?_cons, hlast]

theorem firstLine_cellsOf_append {cs : List Chunk} (h : ∀ c ∈ cs, c.bytes ≠ []) (ys : List Cell) :
    firstLine (cellsOf cs ++ ys) = (cs.map Chunk.line).head?.or (firstLine ys) := by
  cases cs with
  | nil => simp
  | cons c cs =>
    obtain ⟨b, bytes, hbytes⟩ := List.exists_cons_of_ne_nil (h c List.mem_cons_self)
    simp [firstLine, hbytes, onLine]

/-- From one emitter to another, chunks were written at the cursor. -/
structure Written (n : Nat) (e e' : Emitter) (xs ys : List Cell) (cs : List Chunk) : Prop where
  at_ : e'.At (xs ++ cellsOf cs) ys
  width : e'.width = e.width
  laid : ∀ before, n ≤ before.length → LaidBehind before cs

/-- Between these lines, `f` writes the items on those lines. -/
def Writes (n : Nat) (f : Emitter → Emitter) (items : List Item) (lines : List Nat)
    (before behind : Option Nat) : Prop :=
  ∀ e xs ys, e.At xs ys → e.width ≤ maxWidth → lastLine xs = before → firstLine ys = behind →
    ∃ cs, Written n e (f e) xs ys cs ∧ cs.map Chunk.item = items ∧ cs.map Chunk.line = lines

/-- Behind `n` items or more, `f` writes the items, on the lines where the marks are placed. -/
def Emits (n : Nat) (f : Emitter → Emitter) (items : List Item) (marks : Marks) : Prop :=
  ∀ before behind, Writes n f items (marks.placed before behind) before behind

/-- A place at or behind a patch moves with it. -/
theorem moved_of_le {p growth position : Nat} (h : p ≤ position) :
    Patch.moved ⟨p, growth⟩ position = position + growth := by
  rw [Patch.moved]
  exact if_pos h

theorem Written.bytes_ne_nil {n : Nat} {e e' : Emitter} {xs ys : List Cell} {cs : List Chunk}
    (h : Written n e e' xs ys cs) : ∀ c ∈ cs, c.bytes ≠ [] :=
  (h.laid (List.replicate n ⟨.plain .nop, 0, []⟩) (by simp)).bytes_ne_nil

namespace Emits

variable {n : Nat} {f g : Emitter → Emitter} {items items' : List Item} {marks marks' : Marks}

theorem mono {n' : Nat} (h : Emits n f items marks) (hle : n ≤ n') : Emits n' f items marks := by
  intro before behind e xs ys hat hwidth hbefore hbehind
  obtain ⟨cs, hcs, hitems, hline⟩ := h before behind e xs ys hat hwidth hbefore hbehind
  exact ⟨cs, ⟨hcs.at_, hcs.width, fun bs hbs => hcs.laid bs (by omega)⟩, hitems, hline⟩

theorem nothing : Emits n (fun e => e) [] .nil := by
  refine fun before behind e xs ys hat _ _ _ => ⟨[], ⟨?_, rfl, fun _ _ => trivial⟩, rfl, rfl⟩
  simpa using hat

/-- One piece behind the other. -/
theorem seq (hf : Emits n f items marks) (hg : Emits (n + items.length) g items' marks') :
    Emits n (fun e => g (f e)) (items ++ items') (marks ++ marks') := by
  intro before behind e xs ys hat hwidth hbefore hbehind
  have hlines := hf before behind
  have hlines' := hg ((marks.placed before behind).getLast?.or before) behind
  rw [Marks.placed_append]
  generalize marks.placed before behind = lines at hlines hlines' ⊢
  obtain ⟨cs, hcs, hitems, hline⟩ := hlines e xs ys hat hwidth hbefore hbehind
  have hlast : lastLine (xs ++ cellsOf cs) = lines.getLast?.or before := by
    rw [lastLine_append_cellsOf xs hcs.bytes_ne_nil, hline, hbefore]
  obtain ⟨ds, hds, hitems', hline'⟩ :=
    hlines' (f e) _ ys hcs.at_ (by rw [hcs.width]; exact hwidth) hlast hbehind
  refine ⟨cs ++ ds, ⟨?_, hds.width.trans hcs.width, fun bs hbs => ?_⟩, ?_, ?_⟩
  · rw [cellsOf_append, ← List.append_assoc]
    exact hds.at_
  · refine (hcs.laid bs hbs).append (hds.laid _ ?_)
    have hlength : cs.length = items.length := by rw [← hitems, List.length_map]
    rw [List.length_append]
    omega
  · rw [List.map_append, hitems, hitems']
  · rw [List.map_append, hline, hline']

/-- One piece behind the other, when neither needs any in front of it. -/
theorem andThen (hf : Emits 0 f items marks) (hg : Emits 0 g items' marks') :
    Emits 0 (fun e => g (f e)) (items ++ items') (marks ++ marks') :=
  hf.seq (hg.mono (Nat.zero_le _))

/-- One instruction. -/
theorem instr (line : Nat) (i : Instr) (hplain : i.isPlain = true) (hcounts : i.Counts n) :
    Emits n (fun e => e.instr line i) [.plain i hplain] (.mark line) := by
  intro before behind e xs ys hat _ hbefore hbehind
  refine ⟨[⟨.plain i hplain, placedLine before behind line, i.encode⟩], ⟨?_, by simp, ?_⟩, rfl, rfl⟩
  · have hinstr := instr_at hat line i
    rw [hbefore, hbehind] at hinstr
    simpa using hinstr
  · intro bs hbs
    exact ⟨⟨rfl, hcounts.mono hbs⟩, trivial⟩

/-- An instruction behind a piece. -/
theorem thenInstr (hf : Emits 0 f items marks) (line : Nat) (i : Instr) (hplain : i.isPlain = true := by rfl)
    (hcounts : i.Counts 0 := by trivial) :
    Emits 0 (fun e => (f e).instr line i) (items ++ [.plain i hplain]) (marks ++ .mark line) :=
  hf.andThen (instr line i hplain hcounts)

/-! ## Jumps -/

/-- A jump over a piece. -/
theorem jumpOver (j : Jump) (line : Nat) (hf : Emits 0 f items marks) :
    Emits 0 (fun e =>
        let hole := e.cursor + 1
        let e := f (e.jump line j.op)
        (e.patch hole e.cursor).1)
      (.jump j items.length :: items) (.guarded line marks) := by
  intro before behind e xs ys hat hwidth hbefore hbehind
  have hlines := hf (some (placedLine before behind line)) behind
  simp only [Marks.guarded, Marks.placed]
  generalize hfirst : placedLine before behind line = first at hlines ⊢
  generalize marks.placed (some first) behind = lines at hlines ⊢
  have hjump := jump_at hat line j.op
  rw [hbefore, hbehind, hfirst] at hjump
  obtain ⟨cs, hcs, hitems, hline⟩ := hlines _ _ ys hjump (by rw [width_jump]; exact hwidth)
    (lastLine_append_hole _ _ _ _) hbehind
  have hw := hcs.width.trans (width_jump e line j.op)
  have hend := hcs.at_.cursor
  simp only [List.length_append, length_hole, length_cellsOf] at hend
  have hpatch := (patch_hole_at hcs.at_ hw rfl (congrArg (· + 1) hat.cursor)
    (hend.trans (by omega : _ = xs.length + 1 + e.width + sizeOf cs))).1
  have hlength : items.length = cs.length := by rw [← hitems, List.length_map]
  refine ⟨⟨.jump j items.length, first, j.op.toByte :: operand e.width (sizeOf cs)⟩ :: cs,
    ⟨?_, hw, fun bs _ => ?_⟩, ?_, ?_⟩
  · rw [cellsOf_cons, ← List.append_assoc]
    exact hpatch
  · refine ⟨⟨by omega, e.width, hwidth, ?_⟩, hcs.laid _ (Nat.zero_le _)⟩
    rw [hlength, List.take_length]
  · rw [List.map_cons, hitems]
  · rw [List.map_cons, hline]

/-- A choice: a jump over the first piece, which ends with a jump over the second one. -/
theorem choose (line elseLine : Nat) (hf : Emits 0 f items marks) (hg : Emits 0 g items' marks') :
    Emits 0 (fun e =>
        let noHole := e.cursor + 1
        let e := f (e.jump line .jmpFalse)
        let endHole := e.cursor + 1
        let e := e.jump elseLine .jmp
        let noStart := e.cursor
        let e := g e
        let grown := (e.patch endHole e.cursor).2
        let e := (e.patch endHole e.cursor).1
        (e.patch noHole (grown.moved noStart)).1)
      (.jump .onFalse (items.length + 1) :: (items ++ .jump .always items'.length :: items'))
      (.choice line elseLine marks marks') := by
  intro before behind e xs ys hat hwidth hbefore hbehind
  have hyes := hf (some (placedLine before behind line)) behind
  simp only [Marks.choice, Marks.placed, Marks.placed_append]
  generalize hfirst : placedLine before behind line = first at hyes ⊢
  generalize marks.placed (some first) behind = yesLines at hyes ⊢
  have hno := hg (some (placedLine (yesLines.getLast?.or (some first)) behind elseLine)) behind
  generalize hsecond : placedLine (yesLines.getLast?.or (some first)) behind elseLine = second at hno ⊢
  generalize marks'.placed (some second) behind = noLines at hno ⊢
  have hjump := jump_at hat line .jmpFalse
  rw [hbefore, hbehind, hfirst] at hjump
  obtain ⟨cs, hcs, hitems, hline⟩ := hyes _ _ ys hjump (by rw [width_jump]; exact hwidth)
    (lastLine_append_hole _ _ _ _) hbehind
  have hw := hcs.width.trans (width_jump e line .jmpFalse)
  have hyesAt := hcs.at_
  generalize f (e.jump line .jmpFalse) = yesEnd at hw hyesAt ⊢
  have hjump' := jump_at hyesAt elseLine .jmp
  rw [lastLine_append_cellsOf _ hcs.bytes_ne_nil, lastLine_append_hole, hline, hbehind, hsecond, hw]
    at hjump'
  obtain ⟨ds, hds, hitems', hline'⟩ := hno _ _ ys hjump' (by rw [width_jump, hw]; exact hwidth)
    (lastLine_append_hole _ _ _ _) hbehind
  have hw' := (hds.width.trans (width_jump _ elseLine .jmp)).trans hw
  have hnoStart := hjump'.cursor
  have hnoAt := hds.at_
  have hend := hds.at_.cursor
  have hyesCursor := hyesAt.cursor
  simp only [List.length_append, length_hole, length_cellsOf] at hnoStart hend hyesCursor
  generalize g (yesEnd.jump elseLine .jmp) = noEnd at hw' hnoAt hend ⊢
  -- The inner jump comes first; it moves the start of the second piece.
  obtain ⟨hinner, hgrown⟩ := patch_hole_at hnoAt hw' rfl
    (show yesEnd.cursor + 1 = _ by simp only [List.length_append, length_hole, length_cellsOf]; omega)
    (show noEnd.cursor = _ + sizeOf ds by
      simp only [List.length_append, length_hole, length_cellsOf]; omega)
  rw [List.append_assoc, List.append_assoc] at hinner
  have hgrows := width_le_length_operand e.width (sizeOf ds)
  have hmoved : Patch.moved (noEnd.patch (yesEnd.cursor + 1) noEnd.cursor).2
      (yesEnd.jump elseLine .jmp).cursor
      = xs.length + 1 + e.width + (sizeOf cs + ((operand e.width (sizeOf ds)).length + 1)) := by
    simp only [List.length_append, length_hole, length_cellsOf] at hgrown
    rw [hgrown, hnoStart, moved_of_le (by omega)]
    omega
  have houter := (patch_hole_at hinner hw' rfl (congrArg (· + 1) hat.cursor) hmoved).1
  have hlength : items.length = cs.length := by rw [← hitems, List.length_map]
  have hlength' : items'.length = ds.length := by rw [← hitems', List.length_map]
  refine ⟨⟨.jump .onFalse (items.length + 1), first, Op.jmpFalse.toByte
      :: operand e.width (sizeOf cs + ((operand e.width (sizeOf ds)).length + 1))⟩
    :: (cs ++ ⟨.jump .always items'.length, second, Op.jmp.toByte :: operand e.width (sizeOf ds)⟩ :: ds),
    ⟨?_, hw', fun bs _ => ⟨⟨?_, e.width, hwidth, ?_⟩, (hcs.laid _ (Nat.zero_le _)).append
      ⟨⟨by omega, e.width, hwidth, ?_⟩, hds.laid _ (Nat.zero_le _)⟩⟩⟩, ?_, ?_⟩
  · simpa only [cellsOf_cons, cellsOf_append, List.append_assoc] using houter
  · simp only [List.length_append, List.length_cons]
    omega
  · rw [hlength, List.take_length_add_append]
    simp [Jump.op]
  · rw [hlength', List.take_length]
    rfl
  · simp only [List.map_cons, List.map_append, hitems, hitems']
  · simp only [List.map_cons, List.map_append, hline, hline']

/-- A function: a jump over its code, and the value, which says how long that is. -/
theorem function (line endLine : Nat) (hf : Emits 0 f items marks) :
    Emits 0 (fun e =>
        let hole := e.cursor + 1
        let e := e.jump line .jmp
        let start := e.cursor
        let e := f e
        let grown := (e.patch hole e.cursor).2
        let e := (e.patch hole e.cursor).1
        e.instr endLine (.pushFunc (e.cursor - grown.moved start)))
      (.jump .always items.length :: (items ++ [.func items.length])) (.function line endLine marks) := by
  intro before behind e xs ys hat hwidth hbefore hbehind
  have hlines := hf (some (placedLine before behind line)) behind
  simp only [Marks.function, Marks.mark, Marks.placed, Marks.placed_append]
  generalize hfirst : placedLine before behind line = first at hlines ⊢
  generalize marks.placed (some first) behind = lines at hlines ⊢
  have hjump := jump_at hat line .jmp
  rw [hbefore, hbehind, hfirst] at hjump
  obtain ⟨cs, hcs, hitems, hline⟩ := hlines _ _ ys hjump (by rw [width_jump]; exact hwidth)
    (lastLine_append_hole _ _ _ _) hbehind
  have hw := hcs.width.trans (width_jump e line .jmp)
  have hcodeAt := hcs.at_
  have hstart := hjump.cursor
  have hend := hcodeAt.cursor
  simp only [List.length_append, length_hole, length_cellsOf] at hstart hend
  generalize f (e.jump line .jmp) = codeEnd at hw hcodeAt hend ⊢
  obtain ⟨hpatch, hgrown⟩ := patch_hole_at hcodeAt hw rfl (congrArg (· + 1) hat.cursor)
    (show codeEnd.cursor = _ + sizeOf cs by rw [hend]; omega)
  have hgrows := width_le_length_operand e.width (sizeOf cs)
  have hcursor := hpatch.cursor
  simp only [List.length_append, length_onLine, List.length_cons, length_cellsOf] at hcursor
  have hback : (codeEnd.patch (e.cursor + 1) codeEnd.cursor).1.cursor
      - Patch.moved (codeEnd.patch (e.cursor + 1) codeEnd.cursor).2 (e.jump line .jmp).cursor
      = sizeOf cs := by
    rw [hgrown, hstart, moved_of_le (by omega), hcursor]
    omega
  rw [hback]
  have hvalue := instr_at hpatch endLine (.pushFunc (sizeOf cs))
  have hlast : lastLine (xs ++ onLine first (Op.jmp.toByte :: operand e.width (sizeOf cs)) ++ cellsOf cs)
      = lines.getLast?.or (some first) := by
    rw [lastLine_append_cellsOf _ hcs.bytes_ne_nil, hline, lastLine_append_onLine _ _ (by simp)]
  rw [hlast, hbehind] at hvalue
  have hlength : items.length = cs.length := by rw [← hitems, List.length_map]
  refine ⟨⟨.jump .always items.length, first, Op.jmp.toByte :: operand e.width (sizeOf cs)⟩
    :: (cs ++ [⟨.func items.length, placedLine (lines.getLast?.or (some first)) behind endLine,
      (Instr.pushFunc (sizeOf cs)).encode⟩]),
    ⟨?_, by rw [width_instr]; exact hw, fun bs _ => ⟨⟨?_, e.width, hwidth, ?_⟩,
      (hcs.laid _ (Nat.zero_le _)).append (And.intro ?_ trivial)⟩⟩, ?_, ?_⟩
  · simpa only [cellsOf_cons, cellsOf_append, cellsOf_nil, List.append_nil, List.append_assoc] using hvalue
  · rw [List.length_append]
    omega
  · rw [hlength, List.take_append_length]
    rfl
  · refine ⟨?_, ?_⟩
    · rw [List.length_append]
      omega
    · rw [hlength, List.length_append, Nat.add_sub_cancel, List.drop_append_length]
  · simp only [List.map_cons, List.map_append, List.map_nil, hitems]
  · simp only [List.map_cons, List.map_append, List.map_nil, hline]

/-! ## Loops -/

/-- A loop whose next round starts right behind the loop instruction: with a test, and a jump over the
body to what ends the loop. -/
theorem loop (line bodyLine endLine : Nat) (hf : Emits 0 f items marks) (hg : Emits 0 g items' marks') :
    Emits 0 (fun e =>
        let e := e.op line .loop
        let breakHole := e.cursor
        let e := f ((e.placeholder line).write line (Varint.encode 0))
        let stopHole := e.cursor + 1
        let e := g (e.jump bodyLine .jmpFalse)
        let e := (e.patch stopHole e.cursor).1.instr endLine .break
        (e.patch breakHole e.cursor).1)
      (.loop (items.length + items'.length + 2) 0
        :: (items ++ .jump .onFalse items'.length :: (items' ++ [.plain .break])))
      (.loop line bodyLine endLine marks marks') := by
  intro before behind e xs ys hat hwidth hbefore hbehind
  have htest := hf (some (placedLine before behind line)) behind
  simp only [Marks.loop, Marks.mark, Marks.placed, Marks.placed_append]
  generalize hfirst : placedLine before behind line = first at htest ⊢
  generalize marks.placed (some first) behind = testLines at htest ⊢
  have hbody := hg (some (placedLine (testLines.getLast?.or (some first)) behind bodyLine)) behind
  generalize hsecond : placedLine (testLines.getLast?.or (some first)) behind bodyLine = second at hbody ⊢
  generalize marks'.placed (some second) behind = bodyLines at hbody ⊢
  have hop := op_at hat line .loop
  have hopen := jump_at hat line .loop
  rw [hbefore, hbehind, hfirst] at hopen hop
  have hagain := write_at hopen line (Varint.encode 0)
  rw [lastLine_append_hole, hbehind, ← hfirst, placedLine_placedLine, hfirst, ← operand_zero] at hagain
  have hzero : operand 0 0 ≠ [] := by simp [operand, Varint.encodePadded, Varint.length]
  obtain ⟨cs, hcs, hitems, hline⟩ := htest _ _ ys hagain
    (by rw [width_write, width_jump]; exact hwidth) (lastLine_append_onLine _ _ hzero) hbehind
  have hopCursor := hop.cursor
  rw [List.length_append, length_onLine, List.length_singleton] at hopCursor
  rw [← operand_zero, hopCursor]
  have hw := (hcs.width.trans (width_write _ _ _)).trans (width_jump e line .loop)
  have htestAt := hcs.at_
  rw [jump] at hw htestAt
  generalize f (((e.op line .loop).placeholder line).write line (operand 0 0)) = testEnd
    at hw htestAt ⊢
  have hjump := jump_at htestAt bodyLine .jmpFalse
  rw [lastLine_append_cellsOf _ hcs.bytes_ne_nil, lastLine_append_onLine _ _ hzero, hline, hbehind,
    hsecond, hw] at hjump
  obtain ⟨ds, hds, hitems', hline'⟩ := hbody _ _ ys hjump (by rw [width_jump, hw]; exact hwidth)
    (lastLine_append_hole _ _ _ _) hbehind
  have hw' := (hds.width.trans (width_jump _ bodyLine .jmpFalse)).trans hw
  have hbodyAt := hds.at_
  have htestCursor := htestAt.cursor
  have hbodyCursor := hbodyAt.cursor
  generalize g (testEnd.jump bodyLine .jmpFalse) = bodyEnd at hw' hbodyAt hbodyCursor ⊢
  have hstop := (patch_hole_at hbodyAt hw' rfl (congrArg (· + 1) htestCursor)
    (show bodyEnd.cursor = _ + sizeOf ds by
      rw [hbodyCursor]
      simp only [List.length_append, length_hole, length_cellsOf]
      omega)).1
  have hbreak := instr_at hstop endLine .break
  have hlast : lastLine (xs ++ hole first .loop e.width ++ onLine first (operand 0 0) ++ cellsOf cs
        ++ onLine second (Op.jmpFalse.toByte :: operand e.width (sizeOf ds)) ++ cellsOf ds)
      = bodyLines.getLast?.or (some second) := by
    rw [lastLine_append_cellsOf _ hds.bytes_ne_nil, hline', lastLine_append_onLine _ _ (by simp)]
  rw [hlast, hbehind] at hbreak
  have hlength : items.length = cs.length := by rw [← hitems, List.length_map]
  have hlength' : items'.length = ds.length := by rw [← hitems', List.length_map]
  obtain ⟨rest, hrest⟩ : ∃ rest, rest = cs
      ++ ⟨.jump .onFalse items'.length, second, Op.jmpFalse.toByte :: operand e.width (sizeOf ds)⟩
      :: (ds ++ [⟨.plain .break, placedLine (bodyLines.getLast?.or (some second)) behind endLine,
        Instr.break.encode⟩]) := ⟨_, rfl⟩
  have hall : ((bodyEnd.patch (testEnd.cursor + 1) bodyEnd.cursor).1.instr endLine .break).At
      (xs ++ hole first .loop e.width ++ (onLine first (operand 0 0) ++ cellsOf rest)) ys := by
    rw [hrest]
    simpa only [cellsOf_cons, cellsOf_append, cellsOf_nil, List.append_nil, List.append_assoc] using hbreak
  have hrestLength : rest.length = items.length + items'.length + 2 := by
    rw [hrest]
    simp only [List.length_append, List.length_cons, List.length_nil]
    omega
  have hallCursor := hall.cursor
  have hw'' : ((bodyEnd.patch (testEnd.cursor + 1) bodyEnd.cursor).1.instr endLine .break).width
      = e.width := by
    rw [width_instr, width_patch, hw']
  generalize (bodyEnd.patch (testEnd.cursor + 1) bodyEnd.cursor).1.instr endLine .break = breakEnd
    at hall hallCursor hw'' ⊢
  have hdone := (patch_hole_at hall hw'' rfl rfl
    (show breakEnd.cursor = _ + ((operand 0 0).length + sizeOf rest) by
      rw [hallCursor]
      simp only [List.length_append, length_hole, length_onLine, length_cellsOf]
      omega)).1
  refine ⟨⟨.loop (items.length + items'.length + 2) 0, first, Op.loop.toByte
      :: (operand e.width ((operand 0 0).length + sizeOf rest) ++ operand 0 0)⟩ :: rest,
    ⟨?_, by rw [width_patch]; exact hw'', fun bs _ => ⟨⟨?_, ?_, e.width, hwidth, 0, Nat.zero_le _, ?_⟩, ?_⟩⟩,
    ?_, ?_⟩
  · rw [cellsOf_cons, ← List.cons_append, onLine_append, List.append_assoc, ← List.append_assoc]
    exact hdone
  · omega
  · omega
  · rw [List.take_zero, sizeOf_nil, List.take_of_length_le (by omega)]
  · rw [hrest]
    refine (hcs.laid _ (Nat.zero_le _)).append ⟨⟨?_, e.width, hwidth, ?_⟩,
      (hds.laid _ (Nat.zero_le _)).append ⟨⟨rfl, trivial⟩, trivial⟩⟩
    · rw [List.length_append]
      omega
    · rw [hlength', List.take_append_length]
      rfl
  · simp only [hrest, List.map_cons, List.map_append, List.map_nil, hitems, hitems']
  · simp only [hrest, List.map_cons, List.map_append, List.map_nil, hline, hline']

/-- The step of a counting loop is written in front of the test when the test is there already, and
everything behind it goes on behind the test. -/
theorem insertStep {fStep : Emitter → Emitter} {step : List Item} {lines stepLines : List Nat} {first : Nat}
    {behind : Option Nat} (hf : Writes 0 f items lines (some first) behind)
    (hstep : Writes 0 fStep step stepLines (some first) (lines.head?.or behind)) {e : Emitter}
    {zs ys : List Cell} (hat : e.At zs ys) (hwidth : e.width ≤ maxWidth) (hbefore : lastLine zs = some first)
    (hbehind : firstLine ys = behind) :
    ∃ ss ds, Written 0 e ((fStep ((f e).seek e.cursor)).seek
        ((f e).cursor + ((fStep ((f e).seek e.cursor)).cursor - e.cursor))) zs ys (ss ++ ds)
      ∧ (fStep ((f e).seek e.cursor)).cursor - e.cursor = sizeOf ss
      ∧ ss.map Chunk.item = step ∧ ds.map Chunk.item = items
      ∧ (ss ++ ds).map Chunk.line = stepLines ++ lines := by
  have hzs : zs ≠ [] := by
    rintro rfl
    cases hbefore
  obtain ⟨ds, hds, hitems, hline⟩ := hf e zs ys hat hwidth hbefore hbehind
  have htest := hds.at_.cursor
  have hseek := seek_at hds.at_ (List.append_assoc _ _ _) (fun _ => hzs) hat.cursor
  obtain ⟨ss, hss, hitemsStep, hlineStep⟩ := hstep _ _ _ hseek
    (by rw [width_seek, hds.width]; exact hwidth) hbefore
    (by rw [firstLine_cellsOf_append hds.bytes_ne_nil, hline, hbehind])
  have hend := hss.at_.cursor
  have hstart := hat.cursor
  rw [List.length_append, length_cellsOf] at htest hend
  have hsize : (fStep ((f e).seek e.cursor)).cursor - e.cursor = sizeOf ss := by omega
  refine ⟨ss, ds, ⟨?_, ?_, fun bs _ => ?_⟩, hsize, hitemsStep, hitems, ?_⟩
  · rw [hsize, cellsOf_append, ← List.append_assoc]
    refine seek_at hss.at_ (List.append_assoc _ _ _).symm (fun _ => by simp [hzs]) ?_
    rw [List.length_append, List.length_append, length_cellsOf, length_cellsOf]
    omega
  · rw [width_seek, hss.width, width_seek, hds.width]
  · exact (hss.laid _ (Nat.zero_le _)).append (hds.laid _ (Nat.zero_le _))
  · rw [List.map_append, hlineStep, hline]

/-- The jumps of a counting loop get their distances: the one out of the loop, the one of the first
round, and the one to the next round, in this order. -/
theorem patchRounds {e : Emitter} {xs ys : List Cell} {cs ss ds bs : List Chunk}
    {first skip stop w : Nat}
    (hat : e.At (xs ++ hole first .loop w ++ onLine first (List.replicate w 0) ++ cellsOf cs
      ++ hole skip .jmp w ++ cellsOf (ss ++ ds) ++ hole stop .jmpFalse w ++ cellsOf bs) ys)
    (hw : e.width = w) {continueHole startHole stepStart stopHole : Nat}
    (hcontinue : continueHole = xs.length + (w + 1))
    (hstartHole : startHole = continueHole + w + sizeOf cs + 1)
    (hstep : stepStart = startHole + w) (hstop : stopHole = stepStart + sizeOf (ss ++ ds) + 1) :
    let stopped := (e.patch stopHole e.cursor).1
    let skipped := stopped.patch startHole (stepStart + sizeOf ss)
    let patched := (skipped.1.patch continueHole (skipped.2.moved stepStart)).1
    patched.At (xs ++ hole first .loop w
        ++ onLine first (operand w (sizeOf cs + (operand w (sizeOf ss)).length + 1)) ++ cellsOf cs
        ++ onLine skip (Op.jmp.toByte :: operand w (sizeOf ss)) ++ cellsOf (ss ++ ds)
        ++ onLine stop (Op.jmpFalse.toByte :: operand w (sizeOf bs)) ++ cellsOf bs) ys
      ∧ patched.width = w := by
  intro stopped skipped patched
  have hcursor := hat.cursor
  simp only [List.length_append, length_hole, length_onLine, List.length_replicate, length_cellsOf]
    at hcursor
  obtain ⟨hstopped, -⟩ := patch_hole_at hat hw rfl
    (show stopHole = _ by
      simp only [List.length_append, length_hole, length_onLine, List.length_replicate, length_cellsOf]
      omega)
    (show e.cursor = _ + sizeOf bs by
      simp only [List.length_append, length_hole, length_onLine, List.length_replicate, length_cellsOf]
      omega)
  rw [List.append_assoc, List.append_assoc] at hstopped
  obtain ⟨hskipped, hgrown⟩ := patch_hole_at hstopped ((width_patch _ _ _).trans hw) rfl
    (show startHole = _ by
      simp only [List.length_append, length_hole, length_onLine, List.length_replicate, length_cellsOf]
      omega)
    (show stepStart + sizeOf ss = _ + sizeOf ss by
      simp only [List.length_append, length_hole, length_onLine, List.length_replicate, length_cellsOf]
      omega)
  simp only [List.length_append, length_hole, length_onLine, List.length_replicate, length_cellsOf]
    at hgrown
  have hgrows := width_le_length_operand w (sizeOf ss)
  have hmoved : skipped.2.moved stepStart
      = continueHole + w + (sizeOf cs + (operand w (sizeOf ss)).length + 1) := by
    rw [show skipped.2 = _ from hgrown, moved_of_le (by omega)]
    omega
  have hwSkipped : skipped.1.width = w := hw
  rw [List.append_assoc, List.append_assoc] at hskipped
  obtain ⟨hpatched, -⟩ := patch_placeholder_at hskipped hwSkipped rfl (lastLine_append_hole _ _ _ _)
    (show continueHole = _ by rw [List.length_append, length_hole]; exact hcontinue)
    (show skipped.2.moved stepStart = _ + (sizeOf cs + (operand w (sizeOf ss)).length + 1) by
      rw [hmoved, List.length_append, length_hole]
      omega)
  refine ⟨?_, hwSkipped⟩
  simpa only [List.append_assoc] using hpatched

/-- A counting loop. The step is written in front of the test when the test is there already; the
first round jumps over it. -/
theorem countingLoop {start step : List Item} {fStart fStep : Emitter → Emitter} {startMarks stepMarks : Marks}
    (line testLine bodyLine endLine : Nat) (hstart : Emits 0 fStart start startMarks) (hf : Emits 0 f items marks)
    (hstep : Emits 0 fStep step stepMarks) (hg : Emits 0 g items' marks') :
    Emits 0 (fun e =>
        let e := e.op line .loop
        let breakHole := e.cursor
        let e := e.placeholder line
        let continueHole := e.cursor
        let e := fStart (e.placeholder line)
        let startHole := e.cursor + 1
        let e := e.jump testLine .jmp
        let stepStart := e.cursor
        let e := f e
        let testEnd := e.cursor
        let e := fStep (e.seek stepStart)
        let stepSize := e.cursor - stepStart
        let e := e.seek (testEnd + stepSize)
        let stopHole := e.cursor + 1
        let e := g (e.jump bodyLine .jmpFalse)
        let e := (e.patch stopHole e.cursor).1
        let grown := (e.patch startHole (stepStart + stepSize)).2
        let e := (e.patch startHole (stepStart + stepSize)).1
        let e := (e.patch continueHole (grown.moved stepStart)).1.instr endLine .break
        (e.patch breakHole e.cursor).1)
      (.loop (start.length + step.length + items.length + items'.length + 3) (start.length + 1)
        :: (start ++ .jump .always step.length
          :: (step ++ (items ++ .jump .onFalse items'.length :: (items' ++ [.plain .break])))))
      (.countingLoop line testLine bodyLine endLine startMarks marks stepMarks marks') := by
  intro before behind e xs ys hat hwidth hbefore hbehind
  have hstartLines := hstart (some (placedLine before behind line)) behind
  simp only [Marks.countingLoop, Marks.mark, Marks.placed, Marks.placed_append]
  generalize hfirst : placedLine before behind line = first at hstartLines ⊢
  generalize startMarks.placed (some first) behind = startLines at hstartLines ⊢
  generalize hskip : placedLine (startLines.getLast?.or (some first)) behind testLine = skip
  have htest := hf (some skip) behind
  generalize marks.placed (some skip) behind = testLines at htest ⊢
  have hstepLines := hstep (some skip) (testLines.head?.or behind)
  generalize stepMarks.placed (some skip) (testLines.head?.or behind) = stepLines at hstepLines ⊢
  have hbody := hg (some (placedLine
    (testLines.getLast?.or (stepLines.getLast?.or (some skip))) behind bodyLine)) behind
  generalize hstop : placedLine (testLines.getLast?.or (stepLines.getLast?.or (some skip))) behind
    bodyLine = stop at hbody ⊢
  generalize marks'.placed (some stop) behind = bodyLines at hbody ⊢
  have hop := (op_at hat line .loop).cursor
  have hopen := jump_at hat line .loop
  rw [hbefore, hbehind, hfirst, jump] at hopen
  have hboth := placeholder_at hopen line
  rw [lastLine_append_hole, hbehind, ← hfirst, placedLine_placedLine, hfirst, width_placeholder, width_op]
    at hboth
  have hcontinue := hopen.cursor
  rw [List.length_append, length_hole] at hcontinue
  rw [List.length_append, length_onLine, List.length_singleton] at hop
  -- What the loop starts with, and the jump of the first round.
  obtain ⟨cs, hcs, hitemsStart, hlineStart⟩ := hstartLines _ _ ys hboth (by simpa using hwidth)
    (lastLine_append_replicate (lastLine_append_hole _ _ _ _) _ _) hbehind
  have hw : (fStart (((e.op line .loop).placeholder line).placeholder line)).width = e.width := by
    rw [hcs.width, width_placeholder, width_placeholder, width_op]
  have hstartAt := hcs.at_
  have hstartCursor := hstartAt.cursor
  generalize fStart (((e.op line .loop).placeholder line).placeholder line) = startEnd
    at hw hstartAt hstartCursor ⊢
  have hjump := jump_at hstartAt testLine .jmp
  rw [lastLine_append_cellsOf _ hcs.bytes_ne_nil,
    lastLine_append_replicate (lastLine_append_hole _ _ _ _), hlineStart, hbehind, hskip, hw] at hjump
  have hwJump : (startEnd.jump testLine .jmp).width = e.width := by rw [width_jump, hw]
  have hjumpCursor := hjump.cursor
  generalize startEnd.jump testLine .jmp = jumpEnd at hjump hjumpCursor hwJump ⊢
  obtain ⟨ss, ds, hround, hsize, hitemsStep, hitems, hline⟩ := insertStep htest hstepLines hjump
    (by rw [hwJump]; exact hwidth) (lastLine_append_hole _ _ _ _) hbehind
  rw [hsize] at hround ⊢
  have hwRound := hround.width.trans hwJump
  have hroundAt := hround.at_
  generalize (fStep ((f jumpEnd).seek jumpEnd.cursor)).seek ((f jumpEnd).cursor + sizeOf ss) = roundEnd
    at hwRound hroundAt ⊢
  have hroundCursor := hroundAt.cursor
  -- The body, and the jump out of the loop.
  have hstopJump := jump_at hroundAt bodyLine .jmpFalse
  have hroundLast : ((ss ++ ds).map Chunk.line).getLast?.or (some skip)
      = testLines.getLast?.or (stepLines.getLast?.or (some skip)) := by
    rw [hline, List.getLast?_append, Option.or_assoc]
  rw [lastLine_append_cellsOf _ hround.bytes_ne_nil, lastLine_append_hole, hroundLast, hbehind, hstop,
    hwRound] at hstopJump
  obtain ⟨bs, hbs, hitems', hline'⟩ := hbody _ _ ys hstopJump
    (by rw [width_jump, hwRound]; exact hwidth) (lastLine_append_hole _ _ _ _) hbehind
  have hwBody := (hbs.width.trans (width_jump _ bodyLine .jmpFalse)).trans hwRound
  have hbodyAt := hbs.at_
  generalize g (roundEnd.jump bodyLine .jmpFalse) = bodyEnd at hwBody hbodyAt ⊢
  simp only [List.length_append, length_hole, length_onLine, List.length_replicate, length_cellsOf]
    at hstartCursor hjumpCursor hroundCursor
  obtain ⟨hpatched, hwPatched⟩ := patchRounds hbodyAt hwBody hcontinue
    (show startEnd.cursor + 1 = _ by omega) (show jumpEnd.cursor = _ by omega)
    (show roundEnd.cursor + 1 = _ by omega)
  generalize (((bodyEnd.patch (roundEnd.cursor + 1) bodyEnd.cursor).1.patch (startEnd.cursor + 1)
      (jumpEnd.cursor + sizeOf ss)).1.patch _ _).1 = patched at hpatched hwPatched ⊢
  have hbreak := instr_at hpatched endLine .break
  rw [lastLine_append_cellsOf _ hbs.bytes_ne_nil, hline', lastLine_append_onLine _ _ (by simp), hbehind]
    at hbreak
  obtain ⟨rest, hrest⟩ : ∃ rest, rest = cs
      ++ ⟨.jump .always step.length, skip, Op.jmp.toByte :: operand e.width (sizeOf ss)⟩
      :: (ss ++ (ds
        ++ ⟨.jump .onFalse items'.length, stop, Op.jmpFalse.toByte :: operand e.width (sizeOf bs)⟩
        :: (bs ++ [⟨.plain .break, placedLine (bodyLines.getLast?.or (some stop)) behind endLine,
          Instr.break.encode⟩]))) := ⟨_, rfl⟩
  have hall : (patched.instr endLine .break).At (xs ++ hole first .loop e.width
      ++ (onLine first (operand e.width (sizeOf cs + (operand e.width (sizeOf ss)).length + 1))
        ++ cellsOf rest)) ys := by
    rw [hrest]
    simpa only [cellsOf_cons, cellsOf_append, cellsOf_nil, List.append_nil, List.append_assoc] using hbreak
  have hlength : items.length = ds.length := by rw [← hitems, List.length_map]
  have hlength' : items'.length = bs.length := by rw [← hitems', List.length_map]
  have hlengthStart : start.length = cs.length := by rw [← hitemsStart, List.length_map]
  have hlengthStep : step.length = ss.length := by rw [← hitemsStep, List.length_map]
  have hrestLength : rest.length = start.length + step.length + items.length + items'.length + 3 := by
    rw [hrest]
    simp only [List.length_append, List.length_cons, List.length_nil]
    omega
  have hallCursor := hall.cursor
  have hwAll : (patched.instr endLine .break).width = e.width := by rw [width_instr, hwPatched]
  generalize patched.instr endLine .break = breakEnd at hall hallCursor hwAll ⊢
  have hdone := (patch_hole_at hall hwAll rfl hop
    (show breakEnd.cursor = _ + ((operand e.width (sizeOf cs + (operand e.width (sizeOf ss)).length
        + 1)).length + sizeOf rest) by
      rw [hallCursor]
      simp only [List.length_append, length_hole, length_onLine, length_cellsOf]
      omega)).1
  refine ⟨⟨.loop (start.length + step.length + items.length + items'.length + 3) (start.length + 1), first,
      Op.loop.toByte :: (operand e.width ((operand e.width (sizeOf cs
        + (operand e.width (sizeOf ss)).length + 1)).length + sizeOf rest)
        ++ operand e.width (sizeOf cs + (operand e.width (sizeOf ss)).length + 1))⟩ :: rest,
    ⟨?_, by rw [width_patch]; exact hwAll, fun before' _ => ⟨⟨?_, ?_, e.width, hwidth, e.width, hwidth, ?_⟩,
      ?_⟩⟩, ?_, ?_⟩
  · rw [cellsOf_cons, ← List.cons_append, onLine_append, List.append_assoc, ← List.append_assoc]
    exact hdone
  · omega
  · omega
  · have hagain : sizeOf (rest.take (start.length + 1))
        = sizeOf cs + (operand e.width (sizeOf ss)).length + 1 := by
      rw [hrest, hlengthStart, List.take_length_add_append]
      simp [Nat.add_assoc]
    rw [hagain, List.take_of_length_le (by omega)]
  · rw [hrest]
    refine (hcs.laid _ (Nat.zero_le _)).append ⟨⟨?_, e.width, hwidth, ?_⟩, ?_⟩
    · rw [List.length_append]
      omega
    · rw [hlengthStep, List.take_append_length]
      rfl
    · rw [← List.append_assoc]
      refine (hround.laid _ (Nat.zero_le _)).append ⟨⟨?_, e.width, hwidth, ?_⟩,
        (hbs.laid _ (Nat.zero_le _)).append ⟨⟨rfl, trivial⟩, trivial⟩⟩
      · rw [List.length_append]
        omega
      · rw [hlength', List.take_append_length]
        rfl
  · simp only [hrest, List.map_cons, List.map_append, List.map_nil, hitemsStart, hitemsStep, hitems,
      hitems']
  · rw [List.map_append] at hline
    simp only [hrest, List.map_cons, List.map_append, List.map_nil, hlineStart, hline']
    rw [← List.append_assoc (ss.map Chunk.line), hline, List.append_assoc]

end Emits

end ScriptEngine.Code
