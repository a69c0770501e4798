import ScriptEngine.Proofs.Code.Spans
/-!
Ledgers in good order.

A ledger is `Sound` if all that had to hold did so, every finished distance lies on one side of the cursor and
of every open placeholder, and the open placeholders lie in the order in which they were opened, in front of the
cursor. `Drafts t t' n holes places` says that `t'` is sound, that `n` bytes were written since `t` where the cursor
was, which placeholders are open and which places are noted that were not before, and that everything
else was pushed by these bytes. The rules go along with what a construct does: a write, a placeholder, a place
that is noted, one piece behind the other, a patch (`Drafts.write`, `Drafts.placeholder`, `Drafts.hold`,
`Drafts.trans`, `Drafts.patch`), the end of a function and of a choice (`Drafts.closeFunction`,
`Drafts.patchElse`), and the step of a counting loop (`Drafts.insertStep`). `Keeps least g f` says of a construct
that it drafts, and that it does to the emitter of a ledger what the compiler does.
-/

namespace ScriptEngine.Code

namespace Ledger

/-- Everything that had to hold did so, and what is in flight lies around the cursor and around the open
placeholders in good order. -/
structure Sound (t : Ledger) : Prop where
  met : t.met
  cursor_le : t.emitter.cursor ≤ t.emitter.code.size
  width_le : t.emitter.width ≤ Emitter.maxWidth
  inscribed : ∀ s ∈ t.spans, s.Inscribed t.emitter.code.data.toList
  ordered : ∀ s ∈ t.spans, s.Before t.emitter.cursor ∨ s.Behind t.emitter.cursor
  below : ∀ hole ∈ t.holes, hole + t.emitter.width ≤ t.emitter.cursor
  stacked : t.holes.Pairwise fun young old => old + t.emitter.width ≤ young
  clear : ∀ hole ∈ t.holes, ∀ s ∈ t.spans, s.ClearOf hole t.emitter.width

variable {t t' t'' : Ledger}

theorem sound_empty {width : Nat} (h : width ≤ Emitter.maxWidth) : (empty width).Sound :=
  ⟨trivial, Nat.le_refl _, h, nofun, nofun, nofun, .nil, nofun⟩

theorem readable_of_inscribed (h : ∀ s ∈ t.spans, s.Inscribed t.emitter.code.data.toList) : t.Readable :=
  fun s hs => (h s hs).reads

theorem Sound.require (h : t.Sound) {p : Prop} (hp : p) : (t.require p).Sound :=
  { h with met := ⟨h.met, hp⟩ }

theorem Sound.admits (h : t.Sound) : t.Admits t.emitter.cursor := by
  intro s hs
  obtain hbefore | hbehind := h.ordered s hs
  · exact hbefore.not_cutAt
  · exact hbehind.not_cutAt

theorem Sound.write (h : t.Sound) (line : Nat) (bytes : List UInt8) : (t.write line bytes).Sound := by
  have hcode := Emitter.toList_write h.cursor_le line bytes
  have hcursor := Emitter.cursor_write t.emitter line bytes
  have hwidth := Emitter.width_write t.emitter line bytes
  have hinscribed : ∀ s ∈ t.spans.map (Span.pushed t.emitter.cursor bytes.length),
      s.Inscribed (t.emitter.write line bytes).code.data.toList := by
    simp only [List.forall_mem_map]
    intro s hs
    rw [hcode]
    exact (h.inscribed s hs).pushed (h.ordered s hs) h.cursor_le
  refine ⟨⟨⟨h.met, h.admits, h.below⟩, readable_of_inscribed hinscribed⟩, ?_, ?_, hinscribed, ?_, ?_, ?_, ?_⟩
  · show (t.emitter.write line bytes).cursor ≤ (t.emitter.write line bytes).code.size
    rw [hcursor, ← Emitter.length_toList, hcode]
    have := h.cursor_le
    have := t.emitter.length_toList
    simp only [List.length_append, List.length_take, List.length_drop]
    omega
  · exact Nat.le_trans (Nat.le_of_eq hwidth) h.width_le
  · show ∀ s ∈ t.spans.map (Span.pushed t.emitter.cursor bytes.length),
      s.Before (t.emitter.write line bytes).cursor ∨ s.Behind (t.emitter.write line bytes).cursor
    simp only [List.forall_mem_map, hcursor]
    intro s hs
    exact (h.ordered s hs).imp (fun hs' => hs'.pushed (h.inscribed s hs).size_pos) Span.Behind.pushed
  · show ∀ hole ∈ t.holes, hole + (t.emitter.write line bytes).width ≤ (t.emitter.write line bytes).cursor
    rw [hwidth, hcursor]
    exact fun hole hhole => Nat.le_trans (h.below hole hhole) (Nat.le_add_right _ _)
  · show t.holes.Pairwise fun young old => old + (t.emitter.write line bytes).width ≤ young
    rw [hwidth]
    exact h.stacked
  · show ∀ hole ∈ t.holes, ∀ s ∈ t.spans.map (Span.pushed t.emitter.cursor bytes.length),
      s.ClearOf hole (t.emitter.write line bytes).width
    simp only [List.forall_mem_map, hwidth]
    intro hole hhole s hs
    exact (h.clear hole hhole s hs).pushed (h.inscribed s hs).size_pos (h.below hole hhole)

/-- Nothing that is in flight waits for what is written next. -/
structure Strict (t : Ledger) : Prop where
  spans : ∀ s ∈ t.spans, s.target.Before t.emitter.cursor → s.target.position < t.emitter.cursor
  places : ∀ entry ∈ t.places, entry.2.Before t.emitter.cursor → entry.2.position < t.emitter.cursor

theorem strict_write (line : Nat) (bytes : List UInt8) (h : t.Strict ∨ bytes ≠ []) :
    (t.write line bytes).Strict := by
  have hcursor : (t.write line bytes).emitter.cursor = t.emitter.cursor + bytes.length :=
    Emitter.cursor_write _ _ _
  have hpushed : ∀ s : Spot, (t.Strict → s.Before t.emitter.cursor → s.position < t.emitter.cursor) →
      (s.pushed t.emitter.cursor bytes.length).Before (t.emitter.cursor + bytes.length) →
      (s.pushed t.emitter.cursor bytes.length).position < t.emitter.cursor + bytes.length := by
    intro s hs
    refine Spot.lt_of_pushed_before fun hbefore => ?_
    obtain hstrict | hne := h
    · have := hs hstrict hbefore
      omega
    · have := hbefore.le
      have := List.length_pos_iff.mpr hne
      omega
  constructor
  · intro s' hs'
    obtain ⟨s, hs, rfl⟩ := List.mem_map.mp hs'
    rw [hcursor]
    exact hpushed s.target fun hstrict => hstrict.spans s hs
  · intro entry' hentry'
    obtain ⟨entry, hentry, rfl⟩ := List.mem_map.mp hentry'
    rw [hcursor]
    exact hpushed entry.2 fun hstrict => hstrict.places entry hentry

theorem strict_op (t : Ledger) (line : Nat) (o : Op) : (t.op line o).Strict :=
  strict_write line _ (.inr (by simp))

theorem Strict.placeholder (h : t.Strict) (line : Nat) : (t.placeholder line).Strict :=
  { strict_write line (List.replicate t.emitter.width 0) (.inl h) with }

theorem strict_jump (t : Ledger) (line : Nat) (o : Op) : (t.jump line o).Strict :=
  (strict_op t line o).placeholder line

/-- A placeholder may be opened where no distance waits for what is written next. -/
theorem Sound.placeholder (h : t.Sound) (line : Nat) (hstrict : t.Strict) :
    (t.placeholder line).Sound := by
  have hwrite := h.write line (List.replicate t.emitter.width 0)
  have hcursor := Emitter.cursor_write t.emitter line (List.replicate t.emitter.width 0)
  have hwidth := Emitter.width_write t.emitter line (List.replicate t.emitter.width 0)
  rw [List.length_replicate] at hcursor
  refine { hwrite with below := ?_, stacked := ?_, clear := ?_ }
  · show ∀ hole ∈ t.emitter.cursor :: t.holes, hole + (t.emitter.write line _).width
      ≤ (t.emitter.write line _).cursor
    rw [List.forall_mem_cons]
    exact ⟨Nat.le_of_eq (by rw [hwidth, hcursor]), hwrite.below⟩
  · show (t.emitter.cursor :: t.holes).Pairwise fun young old =>
      old + (t.emitter.write line _).width ≤ young
    rw [List.pairwise_cons]
    exact ⟨by rw [hwidth]; exact h.below, hwrite.stacked⟩
  · show ∀ hole ∈ t.emitter.cursor :: t.holes, ∀ s ∈ t.spans.map (Span.pushed t.emitter.cursor
      (List.replicate t.emitter.width (0 : UInt8)).length), s.ClearOf hole (t.emitter.write line _).width
    rw [List.forall_mem_cons]
    refine ⟨?_, hwrite.clear⟩
    simp only [List.forall_mem_map, hwidth, List.length_replicate]
    intro s hs
    obtain hbefore | hbehind := h.ordered s hs
    · refine .inl ⟨?_, ?_⟩
      · rw [Span.operand_pushed_of_before hbefore (h.inscribed s hs).size_pos]
        exact hbefore.1
      · exact Nat.lt_of_le_of_lt (Nat.le_of_eq (Spot.pushed_of_before hbefore.2)) (hstrict.spans s hs hbefore.2)
    · exact .inr hbehind.pushed

/-- A finished distance that stands in front of the cursor and clear of all open placeholders is added. -/
theorem Sound.finish (h : t.Sound) {s : Span} (hinscribed : s.Inscribed t.emitter.code.data.toList)
    (hbefore : s.Before t.emitter.cursor) (hclear : ∀ hole ∈ t.holes, s.ClearOf hole t.emitter.width) :
    (t.finish s).Sound := by
  have hall : ∀ s' ∈ s :: t.spans, s'.Inscribed t.emitter.code.data.toList :=
    List.forall_mem_cons.mpr ⟨hinscribed, h.inscribed⟩
  exact { h with
    met := ⟨h.met, readable_of_inscribed (t := { t with spans := s :: t.spans }) hall⟩
    inscribed := hall
    ordered := List.forall_mem_cons.mpr ⟨.inl hbefore, h.ordered⟩
    clear := fun hole hhole => List.forall_mem_cons.mpr ⟨hclear hole hhole, h.clear hole hhole⟩ }

theorem Sound.fill (h : t.Sound) {position : Nat} {rest : List Nat} (hholes : t.holes = position :: rest)
    (target : Nat) : (t.fill position target).Sound := by
  have hbelow : position + t.emitter.width ≤ t.emitter.cursor := h.below position (by simp [hholes])
  have hsize := Nat.le_trans hbelow h.cursor_le
  have hcursor := Emitter.cursor_patch hbelow target
  have hclear := h.clear position (by simp [hholes])
  have hstacked := h.stacked
  rw [hholes, List.pairwise_cons] at hstacked
  have hrest : ∀ hole ∈ t.holes.tail, hole + t.emitter.width ≤ position := by
    rw [hholes]
    exact hstacked.1
  refine ⟨h.met, ?_, h.width_le, ?_, ?_, ?_, ?_, ?_⟩
  · show (t.emitter.patch position target).1.cursor ≤ (t.emitter.patch position target).1.code.size
    have := t.emitter.length_toList
    have := h.cursor_le
    rw [← Emitter.length_toList, Emitter.toList_patch hsize, hcursor]
    simp only [List.length_append, List.length_take, List.length_drop, Emitter.growth_patch]
    omega
  · show ∀ s : Span, s ∈ t.spans.map _ → s.Inscribed (t.emitter.patch position target).1.code.data.toList
    rw [List.forall_mem_map, Emitter.toList_patch hsize]
    exact fun s hs => (h.inscribed s hs).moved (hclear s hs) rfl (Emitter.growth_patch _ _ _) hsize
  · show ∀ s : Span, s ∈ t.spans.map _ → s.Before (t.emitter.patch position target).1.cursor
      ∨ s.Behind (t.emitter.patch position target).1.cursor
    rw [List.forall_mem_map, hcursor]
    exact fun s hs => (h.ordered s hs).imp (Span.Before.moved · hbelow) (Span.Behind.moved · hbelow)
  · show ∀ hole ∈ t.holes.tail, hole + t.emitter.width ≤ (t.emitter.patch position target).1.cursor
    rw [hcursor]
    intro hole hhole
    have := hrest hole hhole
    omega
  · show t.holes.tail.Pairwise _
    rw [hholes]
    exact hstacked.2
  · show ∀ hole ∈ t.holes.tail, ∀ s : Span, s ∈ t.spans.map _ → s.ClearOf hole t.emitter.width
    intro hole hhole
    have hfront := hrest hole hhole
    rw [List.forall_mem_map]
    exact fun s hs => (h.clear hole (List.mem_of_mem_tail hhole) s hs).moved (h.inscribed s hs).size_pos
      (show hole ≤ position + t.emitter.width by omega)

theorem Sound.seek (h : t.Sound) {position : Nat} {meant : Spot} (hposition : position = meant.position)
    (hle : position ≤ t.emitter.code.size) (hordered : ∀ s ∈ t.spans, s.Before position ∨ s.Behind position)
    (hbelow : ∀ hole ∈ t.holes, hole + t.emitter.width ≤ position) : (t.seek position meant).Sound :=
  { h with
    met := ⟨h.met, hposition, hle⟩
    cursor_le := hle
    ordered := hordered
    below := hbelow }

/-- The placeholder that was opened last is filled with the distance to a place in front of the cursor. -/
theorem Sound.patch (h : t.Sound) {position target : Nat} {meant : Spot} {rest : List Nat}
    (hholes : t.holes = position :: rest) (hmeant : meant.Before t.emitter.cursor)
    (htarget : target = meant.position) (hle : position + t.emitter.width ≤ target) :
    (t.patch position target meant).1.Sound := by
  have hstacked := h.stacked
  rw [hholes, List.pairwise_cons] at hstacked
  have hrest : ∀ hole ∈ t.holes.tail, hole + t.emitter.width ≤ position := by
    rw [hholes]
    exact hstacked.1
  have hmet : t.Admits (position + t.emitter.width) ∧ t.holes.head? = some position ∧
      (∀ hole ∈ t.holes.tail, hole + t.emitter.width ≤ position) ∧ target = meant.position ∧
      position + t.emitter.width ≤ target := by
    refine ⟨fun s hs => (h.clear position (by simp [hholes]) s hs).not_cutAt, ?_, hrest, htarget, hle⟩
    rw [hholes]
    rfl
  have hsize : target ≤ t.emitter.code.size := by
    rw [htarget]
    exact Nat.le_trans hmeant.le h.cursor_le
  have hfill := (h.require hmet).fill hholes target
  have hinscribed := Emitter.inscribed_filled htarget hle hsize h.width_le
  have hbefore : (Span.filled position t.emitter.width (t.emitter.patch position target).2 meant).Before
      (t.emitter.patch position target).1.cursor := Emitter.before_filled (h.below position (by simp [hholes])) hmeant
  have hclear : ∀ hole ∈ t.holes.tail, Span.ClearOf hole t.emitter.width
      (.filled position t.emitter.width (t.emitter.patch position target).2 meant) :=
    fun hole hhole => Emitter.clearOf_filled htarget hle (hrest hole hhole)
  rw [Ledger.patch]
  exact hfill.finish hinscribed hbefore hclear

/-! ## What a construct does -/

/-- Between what stood in front of the cursor and behind it, `n` bytes came in. Some placeholders are open and
some places are noted that were not before, and everything else was pushed. -/
structure Drafts (t t' : Ledger) (n : Nat) (holes : List Nat) (places : List (Held × Spot)) : Prop where
  sound : t'.Sound
  frame : t.emitter.Extends t'.emitter
  cursor : t'.emitter.cursor = t.emitter.cursor + n
  width : t'.emitter.width = t.emitter.width
  holes : t'.holes = holes ++ t.holes
  places : t'.places = places ++ t.places.map (Prod.map id (Spot.pushed t.emitter.cursor n))
  spans : ∀ s' ∈ t'.spans, s'.Before t'.emitter.cursor ∨ ∃ s ∈ t.spans, s' = s.pushed t.emitter.cursor n

@[simp] theorem emitter_write (t : Ledger) (line : Nat) (bytes : List UInt8) :
    (t.write line bytes).emitter = t.emitter.write line bytes := rfl

@[simp] theorem emitter_instr (t : Ledger) (line : Nat) (i : Instr) :
    (t.instr line i).emitter = t.emitter.instr line i := by
  have hpieces : ∀ (pieces : List (List UInt8)) (t : Ledger),
      (pieces.foldl (fun t bytes => t.write line bytes) t).emitter
        = pieces.foldl (fun e bytes => e.write line bytes) t.emitter := by
    intro pieces
    induction pieces with
    | nil => exact fun t => rfl
    | cons piece pieces ih => exact fun t => ih (t.write line piece)
  exact hpieces i.pieces t

@[simp] theorem emitter_op (t : Ledger) (line : Nat) (o : Op) :
    (t.op line o).emitter = t.emitter.op line o := rfl

@[simp] theorem emitter_placeholder (t : Ledger) (line : Nat) :
    (t.placeholder line).emitter = t.emitter.placeholder line := rfl

@[simp] theorem emitter_jump (t : Ledger) (line : Nat) (o : Op) :
    (t.jump line o).emitter = t.emitter.jump line o := rfl

@[simp] theorem emitter_patch (t : Ledger) (position target : Nat) (meant : Spot) :
    (t.patch position target meant).1.emitter = (t.emitter.patch position target).1 := by
  rw [Ledger.patch]
  rfl

@[simp] theorem snd_patch (t : Ledger) (position target : Nat) (meant : Spot) :
    (t.patch position target meant).2 = (t.emitter.patch position target).2 := by
  rw [Ledger.patch]
  rfl

@[simp] theorem emitter_pushFunc (t : Ledger) (line back : Nat) (meant : Spot) :
    (t.pushFunc line back meant).emitter = t.emitter.instr line (.pushFunc back) :=
  emitter_instr _ line (.pushFunc back)

@[simp] theorem emitter_hold (t : Ledger) (name : Held) : (t.hold name).emitter = t.emitter := rfl

@[simp] theorem emitter_release (t : Ledger) (name : Held) : (t.release name).emitter = t.emitter := rfl

@[simp] theorem emitter_seek (t : Ledger) (position : Nat) (meant : Spot) :
    (t.seek position meant).emitter = t.emitter.seek position := rfl

namespace Drafts

variable {n m : Nat} {holes holes' : List Nat} {places places' : List (Held × Spot)}

theorem refl (h : t.Sound) : Drafts t t 0 [] [] where
  sound := h
  frame := .refl _
  cursor := rfl
  width := rfl
  holes := rfl
  places := by
    rw [List.nil_append]
    exact (List.map_id'' (fun x => by simp [Prod.map]) _).symm
  spans := fun s hs => .inr ⟨s, hs, (Span.pushed_zero _ _).symm⟩

/-- One piece is written behind the other. -/
theorem trans (h : Drafts t t' n holes places) (h' : Drafts t' t'' m holes' places') :
    Drafts t t'' (n + m) (holes' ++ holes)
      (places' ++ places.map (Prod.map id (Spot.pushed (t.emitter.cursor + n) m))) where
  sound := h'.sound
  frame := h.frame.trans h'.frame
  cursor := by rw [h'.cursor, h.cursor, Nat.add_assoc]
  width := h'.width.trans h.width
  holes := by rw [h'.holes, h.holes, List.append_assoc]
  places := by
    rw [h'.places, h.places, h.cursor, List.map_append, List.map_map, List.append_assoc]
    congr 3
    funext entry
    exact Prod.ext rfl (Spot.pushed_pushed _ _ _ _)
  spans := by
    intro s'' hs''
    obtain hbefore | ⟨s', hs', rfl⟩ := h'.spans s'' hs''
    · exact .inl hbefore
    obtain hbefore | ⟨s, hs, rfl⟩ := h.spans s' hs'
    · refine .inl ?_
      rw [h'.cursor]
      exact hbefore.pushed (h.sound.inscribed s' hs').size_pos
    · exact .inr ⟨s, hs, by rw [h.cursor, Span.pushed_pushed]⟩

theorem write (h : t.Sound) (line : Nat) (bytes : List UInt8) :
    Drafts t (t.write line bytes) bytes.length [] [] where
  sound := h.write line bytes
  frame := Emitter.extends_write h.cursor_le line bytes
  cursor := Emitter.cursor_write _ _ _
  width := Emitter.width_write _ _ _
  holes := rfl
  places := rfl
  spans := by
    intro s' hs'
    obtain ⟨s, hs, rfl⟩ := List.mem_map.mp hs'
    exact .inr ⟨s, hs, rfl⟩

theorem instr (h : t.Sound) (line : Nat) (i : Instr) : Drafts t (t.instr line i) i.encode.length [] [] := by
  have hpieces : ∀ (pieces : List (List UInt8)) {t : Ledger}, t.Sound →
      Drafts t (pieces.foldl (fun t bytes => t.write line bytes) t) pieces.flatten.length [] [] := by
    intro pieces
    induction pieces with
    | nil => exact fun h => refl h
    | cons piece pieces ih =>
      intro t h
      have hpiece := write h line piece
      have hall := hpiece.trans (ih hpiece.sound)
      rwa [← List.length_append] at hall
  exact hpieces i.pieces h

/-- A placeholder is opened where no distance waits for what is written next. -/
theorem placeholder (h : t.Sound) (line : Nat) (hstrict : t.Strict) :
    Drafts t (t.placeholder line) t.emitter.width [t.emitter.cursor] [] := by
  have hwrite := write h line (List.replicate t.emitter.width 0)
  rw [List.length_replicate] at hwrite
  exact { hwrite with
    sound := h.placeholder line hstrict
    holes := congrArg (t.emitter.cursor :: ·) hwrite.holes }

theorem jump (h : t.Sound) (line : Nat) (o : Op) :
    Drafts t (t.jump line o) (1 + t.emitter.width) [t.emitter.cursor + 1] [] := by
  have hop : Drafts t (t.op line o) 1 [] [] := write h line [o.toByte]
  have hall := hop.trans (placeholder hop.sound line (strict_op t line o))
  rwa [hop.width, hop.cursor] at hall

theorem since (h : Drafts t t' n holes places) : Drafts t (t'.since t) n holes places :=
  { h with sound := h.sound.require h.frame }

/-- The place of what is written next is noted. -/
theorem hold (h : Drafts t t' n holes places) (name : Held) :
    Drafts t (t'.hold name) n holes ((name, ⟨t.emitter.cursor + n, false⟩) :: places) :=
  { h with
    sound := { h.sound with }
    places := by
      rw [List.cons_append, ← h.places, ← h.cursor]
      rfl }

theorem release (h : Drafts t t' n holes places) {name : Held} {s : Spot} (hname : (name, s) ∈ places) :
    Drafts t (t'.release name) n holes (places.eraseP fun entry => entry.1 = name) :=
  { h with
    sound := { h.sound with }
    places := by
      show t'.places.eraseP _ = _
      rw [h.places, List.eraseP_append_left (by simp) _ hname] }

theorem place_eq (h : Drafts t t' n holes places) {name : Held} {s : Spot}
    (hname : places.lookup name = some s) : t'.place name = s := by
  rw [place, h.places, List.lookup_append, hname]
  rfl

/-- The placeholder that was opened last is filled, and what was written since becomes longer. -/
theorem patch {position target : Nat} {meant : Spot} (h : Drafts t t' n (position :: holes) places)
    (hfront : t.emitter.cursor < position) (hmeant : meant.Before t'.emitter.cursor)
    (htarget : target = meant.position) (hle : position + t.emitter.width ≤ target) :
    Drafts t (t'.patch position target meant).1
      (n + (t'.emitter.patch position target).2.growth) holes
      (places.map (Prod.map id (Spot.moved (t'.emitter.patch position target).2))) := by
  have hholes : t'.holes = position :: (holes ++ t.holes) := h.holes
  have hbelow : position + t'.emitter.width ≤ t'.emitter.cursor := h.sound.below position (by simp [hholes])
  have hcursor := Emitter.cursor_patch hbelow target
  have hpoint : t.emitter.cursor < (t'.emitter.patch position target).2.position :=
    Nat.lt_of_lt_of_le hfront (Nat.le_add_right _ _)
  have hend : (t'.emitter.patch position target).2.position ≤ t.emitter.cursor + n := by
    rw [← h.cursor]
    exact hbelow
  refine ⟨h.sound.patch hholes hmeant htarget (by rwa [h.width]), ?_, ?_, h.width, ?_, ?_, ?_⟩
  · exact h.frame.patch (Nat.le_of_lt hfront) hbelow h.sound.cursor_le target
  · show (t'.emitter.patch position target).1.cursor = _
    rw [hcursor, h.cursor, Nat.add_assoc]
  · show t'.holes.tail = _
    rw [hholes, List.tail_cons]
  · show t'.places.map _ = _
    rw [h.places, List.map_append, List.map_map]
    congr 2
    funext entry
    exact Prod.ext rfl (Spot.moved_pushed _ hpoint hend)
  · show ∀ s' : Span, s' ∈ _ :: t'.spans.map _ → s'.Before (t'.emitter.patch position target).1.cursor ∨ _
    rw [List.forall_mem_cons, List.forall_mem_map]
    refine ⟨.inl (Emitter.before_filled hbelow hmeant), fun s' hs' => ?_⟩
    obtain hbefore | ⟨s, hs, rfl⟩ := h.spans s' hs'
    · rw [hcursor]
      exact .inl (hbefore.moved hbelow)
    · exact .inr ⟨s, hs, Span.moved_pushed s hpoint hend⟩

/-- A distance that was written leads back over code behind all open placeholders. -/
theorem finish {s : Span} (h : Drafts t t' n holes places) (hinscribed : s.Inscribed t'.emitter.code.data.toList)
    (hbefore : s.Before t'.emitter.cursor) (hclear : ∀ hole ∈ t'.holes, s.ClearOf hole t'.emitter.width) :
    Drafts t (t'.finish s) n holes places :=
  { h with
    sound := h.sound.finish hinscribed hbefore hclear
    spans := List.forall_mem_cons.mpr ⟨.inl hbefore, h.spans⟩ }

/-- A function is pushed whose code is in front of the cursor and behind all open placeholders. -/
theorem pushFunc (h : t.Sound) (line : Nat) {back : Nat} {meant : Spot}
    (hback : meant.position + back = t.emitter.cursor) (hwritten : meant.written = true)
    (hbelow : ∀ hole ∈ t.holes, hole + t.emitter.width ≤ meant.position) :
    Drafts t (t.pushFunc line back meant) (1 + Varint.length back) [] [] := by
  have hop : Drafts (t.require (meant.position + back = t.emitter.cursor)) _ 1 [] [] :=
    write (h.require hback) line [Op.pushFunc.toByte]
  have hnumber := write hop.sound line (Varint.encode back)
  have hstands := Emitter.isPrefix_write hop.sound.cursor_le line (Varint.encode back)
  rw [hop.cursor] at hstands
  have hall := hop.trans hnumber
  rw [Varint.length_encode] at hall
  have hend := hall.cursor
  have hle := hall.sound.cursor_le
  have hcursor : (t.require (meant.position + back = t.emitter.cursor)).emitter.cursor = t.emitter.cursor := rfl
  rw [hcursor] at hend
  have hdone : Drafts (t.require (meant.position + back = t.emitter.cursor)) (t.pushFunc line back meant)
      (1 + Varint.length back) [] [] := by
    refine hall.finish ⟨back, congrArg (· + 1) hback, ?_, Nat.le_refl _, Nat.le_max_left _ _, ?_⟩
      ⟨?_, .inl ?_⟩ fun hole hhole => .inr ⟨?_, ?_⟩
    · rw [Emitter.length_toList]
      omega
    · exact hstands
    · show t.emitter.cursor + 1 + Varint.length back ≤ _
      omega
    · show meant.position < _
      omega
    · rw [hall.width]
      have := hbelow hole hhole
      show hole + t.emitter.width ≤ t.emitter.cursor + 1
      omega
    · rw [hall.width]
      rintro (hlt | ⟨-, hunwritten⟩)
      · have := hbelow hole hhole
        exact absurd hlt (Nat.not_lt.mpr this)
      · rw [hwritten] at hunwritten
        nomatch hunwritten
  exact { hdone with }

end Drafts

/-- `f` does to a ledger what `g` does to its emitter, and writes at least `least` bytes where the cursor is. -/
structure Keeps (least : Nat) (g : Emitter → Emitter) (f : Ledger → Ledger) : Prop where
  emitter : ∀ t, (f t).emitter = g t.emitter
  drafts : ∀ {t}, t.Sound → ∃ n, least ≤ n ∧ Drafts t (f t) n [] []

namespace Drafts

variable {n m : Nat} {holes : List Nat} {places : List (Held × Spot)}

/-- What a test leaves in flight when it was written behind a placeholder that is open. -/
theorem around (h : Drafts t t' n [] places) {hole : Nat} {rest : List Nat} (hholes : t.holes = hole :: rest)
    (hcursor : t.emitter.cursor = hole + t.emitter.width) :
    ∀ s ∈ t'.spans, (s.target.Before t.emitter.cursor → s.target.position < t.emitter.cursor) ∧
      (s.Before t.emitter.cursor ∨ s.Behind t.emitter.cursor) := by
  intro s hs
  have hclear := h.sound.clear hole (by simp [h.holes, hholes]) s hs
  rw [h.width, Span.ClearOf, ← hcursor] at hclear
  obtain ⟨hoperand, htarget⟩ | hbehind := hclear
  · exact ⟨fun _ => by omega, .inl ⟨by omega, .inl (by omega)⟩⟩
  · exact ⟨fun hbefore => absurd hbefore hbehind.2, .inr hbehind⟩

/-- When a piece is written in front of another one, the distances of both end in front of what comes behind
both, and the others are pushed by both. -/
theorem spans_insert {tested turned stepped : Ledger} (htested : Drafts t tested n [] places)
    (hstepped : Drafts turned stepped m [] []) (hcursor : turned.emitter.cursor = t.emitter.cursor)
    (hspans : turned.spans = tested.spans) (hstrict : t.Strict)
    (haround : ∀ s ∈ tested.spans,
      (s.target.Before t.emitter.cursor → s.target.position < t.emitter.cursor) ∧
      (s.Before t.emitter.cursor ∨ s.Behind t.emitter.cursor)) :
    ∀ s' ∈ stepped.spans, s'.Before (t.emitter.cursor + (n + m)) ∨
      s'.Behind (t.emitter.cursor + (n + m)) ∧ ∃ s ∈ t.spans, s' = s.pushed t.emitter.cursor (n + m) := by
  have hend : tested.emitter.cursor + m = t.emitter.cursor + (n + m) := by rw [htested.cursor, Nat.add_assoc]
  have hle : t.emitter.cursor ≤ tested.emitter.cursor := htested.frame.1
  intro s' hs'
  obtain hbefore | ⟨x, hx, rfl⟩ := hstepped.spans s' hs'
  · rw [hstepped.cursor, hcursor] at hbefore
    exact .inl (hbefore.mono (by omega))
  rw [hspans] at hx
  obtain ⟨hwaits, hplace⟩ := haround x hx
  have hmoved : x.pushed t.emitter.cursor m = x.moved ⟨t.emitter.cursor, m⟩ :=
    Span.pushed_eq_moved hplace (htested.sound.inscribed x hx).size_pos hwaits
  rw [hcursor, ← hend]
  obtain hbefore | hbehind := htested.sound.ordered x hx
  · rw [hmoved]
    exact .inl (hbefore.moved (p := ⟨t.emitter.cursor, m⟩) hle)
  · refine .inr ⟨by rw [hmoved]; exact hbehind.moved (p := ⟨t.emitter.cursor, m⟩) hle, ?_⟩
    obtain hbefore | ⟨s, hs, rfl⟩ := htested.spans x hx
    · exact absurd hbefore.2 hbehind.2
    · exact ⟨s, hs, Span.pushed_again n m (hstrict.spans s hs)⟩

/-- The cursor goes back to where a piece begins, right behind a placeholder that is open. -/
theorem sound_turned {tested : Ledger} {meant : Spot} (h : t.Sound) (htested : Drafts t tested n [] places)
    (hmeant : meant.position = t.emitter.cursor)
    (haround : ∀ s ∈ tested.spans, s.Before t.emitter.cursor ∨ s.Behind t.emitter.cursor) :
    (tested.seek t.emitter.cursor meant).Sound := by
  refine htested.sound.seek hmeant.symm (Nat.le_trans htested.frame.1 htested.sound.cursor_le) haround ?_
  rw [htested.holes, htested.width]
  exact h.below

/-- The cursor goes on to the end of a piece that another one was written in front of. -/
theorem sound_resumed {tested turned stepped : Ledger} {meant : Spot} (h : t.Sound)
    (htested : Drafts t tested n [] places) (hstepped : Drafts turned stepped m [] [])
    (hemitter : turned.emitter = tested.emitter.seek t.emitter.cursor) (hholes : turned.holes = tested.holes)
    (hmeant : meant.position = t.emitter.cursor + (n + m))
    (hspans : ∀ s ∈ stepped.spans,
      s.Before (t.emitter.cursor + (n + m)) ∨ s.Behind (t.emitter.cursor + (n + m))) :
    (stepped.seek (t.emitter.cursor + (n + m)) meant).Sound := by
  have hstepEnd := hstepped.cursor
  have hframe := hstepped.frame
  have hwidth := hstepped.width
  rw [hemitter] at hstepEnd hframe hwidth
  have hgrown := hframe.size_eq (Nat.le_trans htested.frame.1 htested.sound.cursor_le) hstepped.sound.cursor_le
  refine hstepped.sound.seek hmeant.symm ?_ hspans ?_
  · have htestEnd := htested.cursor
    have hfit := htested.sound.cursor_le
    simp only [Emitter.seek] at hgrown hstepEnd
    omega
  · rw [hstepped.holes, hholes, htested.holes, hwidth]
    show ∀ hole ∈ t.holes, hole + tested.emitter.width ≤ _
    rw [htested.width]
    exact fun hole hhole => Nat.le_trans (h.below hole hhole) (Nat.le_add_right _ _)

/-- The step of a counting loop is written in front of its test, right behind a placeholder that is open. -/
theorem insertStep {f fStep : Ledger → Ledger} {g gStep : Emitter → Emitter} {least hole : Nat} {rest : List Nat}
    (h : t.Sound) (hstrict : t.Strict) (hholes : t.holes = hole :: rest)
    (hcursor : t.emitter.cursor = hole + t.emitter.width) (hf : Keeps 1 g f) (hstep : Keeps least gStep fStep) :
    let tested := (f ((t.hold .stepStart).hold .testStart)).hold .testEnd
    let turned := ((tested.seek t.emitter.cursor (tested.place .stepStart)).release .stepStart).hold .stepStart
    let stepped := fStep turned
    let size := stepped.emitter.cursor - t.emitter.cursor
    ∃ n s s', size < n ∧ s.position = t.emitter.cursor ∧ s'.position = t.emitter.cursor + size ∧
      Drafts t ((stepped.seek (tested.emitter.cursor + size) (stepped.place .testEnd)).release .testEnd) n []
        [(.stepStart, s), (.testStart, s')] := by
  intro tested turned stepped size
  obtain ⟨n, hn, htest⟩ := hf.drafts (t := (t.hold .stepStart).hold .testStart) { h with }
  have htested : Drafts t tested n [] [(.testEnd, ⟨t.emitter.cursor + n, false⟩),
      (.testStart, ⟨t.emitter.cursor, true⟩), (.stepStart, ⟨t.emitter.cursor, true⟩)] := by
    have hall := ((((refl h).hold .stepStart).hold .testStart).trans htest).hold .testEnd
    simpa [Spot.pushed_waiting hn] using hall
  have haround := htested.around hholes hcursor
  have hplace : tested.place .stepStart = ⟨t.emitter.cursor, true⟩ := htested.place_eq rfl
  have hturned := sound_turned h htested (congrArg Spot.position hplace) fun s hs => (haround s hs).2
  obtain ⟨m, -, hstepped⟩ := hstep.drafts (t := turned) { hturned with }
  have hspans := spans_insert htested hstepped rfl rfl hstrict haround
  have hend : stepped.emitter.cursor = t.emitter.cursor + m := hstepped.cursor
  have hsize : size = m := by
    show stepped.emitter.cursor - _ = m
    omega
  -- The places of the loop, and the others, which both pieces have pushed.
  have hplaces : stepped.places = (.stepStart, Spot.pushed t.emitter.cursor m ⟨t.emitter.cursor, false⟩)
      :: (.testEnd, ⟨t.emitter.cursor + (n + m), false⟩) :: (.testStart, ⟨t.emitter.cursor + m, true⟩)
      :: t.places.map (Prod.map id (Spot.pushed t.emitter.cursor (n + m))) := by
    have htestEnd : Spot.pushed t.emitter.cursor m ⟨t.emitter.cursor + n, false⟩
        = ⟨t.emitter.cursor + (n + m), false⟩ := by
      rw [Spot.pushed_of_not_before (Spot.not_before_of_lt (Nat.lt_add_of_pos_right hn)), Nat.add_assoc]
    have hothers : t.places.map (Prod.map id (Spot.pushed t.emitter.cursor m)
          ∘ Prod.map id (Spot.pushed t.emitter.cursor n))
        = t.places.map (Prod.map id (Spot.pushed t.emitter.cursor (n + m))) :=
      List.map_congr_left fun entry hentry =>
        Prod.ext rfl (Spot.pushed_again n m (hstrict.places entry hentry))
    have hheld : turned.places = (.stepStart, ⟨t.emitter.cursor, false⟩)
        :: (tested.places.eraseP fun entry => entry.1 = .stepStart) := rfl
    rw [show stepped.places = _ from hstepped.places, hheld, htested.places,
      show turned.emitter.cursor = t.emitter.cursor from rfl]
    simp [htestEnd, hothers, Spot.pushed_written]
  have hlast : stepped.place .testEnd = ⟨t.emitter.cursor + (n + m), false⟩ := by
    rw [place, hplaces]
    rfl
  have hdone := sound_resumed h htested hstepped rfl rfl (congrArg Spot.position hlast)
    fun s hs => (hspans s hs).imp_right And.left
  rw [hsize, show tested.emitter.cursor + m = t.emitter.cursor + (n + m) by
    rw [htested.cursor, Nat.add_assoc]]
  refine ⟨n + m, Spot.pushed t.emitter.cursor m ⟨t.emitter.cursor, false⟩, ⟨t.emitter.cursor + m, true⟩,
    Nat.lt_add_of_pos_left hn, Spot.pushed_of_before (Spot.before_waiting _), rfl, { hdone with },
    htested.frame.insert hstepped.frame htested.cursor hend, rfl, hstepped.width.trans htested.width,
    hstepped.holes.trans htested.holes, ?_, fun s hs => (hspans s hs).imp_right And.right⟩
  show stepped.places.eraseP _ = _
  rw [hplaces]
  rfl

/-- A construct is written behind what was written so far. -/
theorem piece {f : Ledger → Ledger} {g : Emitter → Emitter} {least : Nat} (h : Drafts t t' n holes places)
    (hf : Keeps least g f) : ∃ m, least ≤ m ∧
      Drafts t (f t') (n + m) holes (places.map (Prod.map id (Spot.pushed (t.emitter.cursor + n) m))) := by
  obtain ⟨m, hm, hpiece⟩ := hf.drafts h.sound
  exact ⟨m, hm, h.trans hpiece⟩

/-- The placeholder that was opened last is filled with the distance to what is written next. -/
theorem patchHere {position : Nat} (h : Drafts t t' n (position :: holes) places)
    (hfront : t.emitter.cursor < position) :
    Drafts t (t'.patch position t'.emitter.cursor t'.here).1
      (n + (t'.emitter.patch position t'.emitter.cursor).2.growth) holes
      (places.map (Prod.map id (Spot.moved (t'.emitter.patch position t'.emitter.cursor).2))) :=
  h.patch hfront (.inr ⟨rfl, rfl⟩) rfl (by
    rw [← h.width]
    exact h.sound.below position (by simp [h.holes]))

/-- The jump behind the first of two pieces is filled, and then the one to the second piece, which has
moved with that. -/
theorem patchElse {endHole noHole noStart : Nat} {s : Spot}
    (h : Drafts t t' n [endHole, noHole] [(.elseStart, s)]) (hfront : t.emitter.cursor < noHole)
    (hs : s.Before t'.emitter.cursor) (hposition : s.position = noStart)
    (hstart : noHole + t.emitter.width ≤ noStart) :
    let first := t'.patch endHole t'.emitter.cursor t'.here
    ∃ m, n ≤ m ∧ Drafts t
      ((first.1.patch noHole (first.2.moved noStart) (first.1.place .elseStart)).1.release .elseStart) m [] [] := by
  intro first
  have hstacked := h.sound.stacked
  rw [h.holes, List.cons_append, List.pairwise_cons, h.width] at hstacked
  have hopen := hstacked.1 noHole (by simp)
  have hbelow := h.sound.below endHole (by simp [h.holes])
  have hfirst := h.patchHere (by omega)
  have hmeant : first.1.place .elseStart = s.moved first.2 := by
    rw [show first.2 = _ from snd_patch _ _ _ _]
    exact hfirst.place_eq rfl
  have hmoved : (s.moved first.2).position = first.2.moved noStart := congrArg first.2.moved hposition
  have hcursor : first.1.emitter.cursor = t'.emitter.cursor + first.2.growth := by
    rw [emitter_patch, snd_patch]
    exact Emitter.cursor_patch hbelow _
  have hbefore : (s.moved first.2).Before first.1.emitter.cursor := by
    rw [hcursor]
    exact hs.moved (by rw [snd_patch]; exact hbelow)
  have hsecond := hfirst.patch hfront hbefore hmoved.symm (by unfold Patch.moved; split <;> omega)
  rw [hmeant]
  exact ⟨_, by omega, hsecond.release (List.mem_singleton_self _)⟩

/-- The jump over the code of a function is filled, and the function is pushed, whose start has moved with
that. -/
theorem closeFunction {hole start : Nat} (h : Drafts t t' n [hole] [(.functionStart, ⟨start, true⟩)])
    (hsound : t.Sound) (hfront : t.emitter.cursor < hole) (hstart : t.emitter.cursor ≤ start)
    (hend : start ≤ t'.emitter.cursor) (line : Nat) :
    let first := t'.patch hole t'.emitter.cursor t'.here
    ∃ m, n ≤ m ∧ Drafts t ((first.1.pushFunc line (first.1.emitter.cursor - first.2.moved start)
      (first.1.place .functionStart)).release .functionStart) m [] [] := by
  intro first
  have hbelow := h.sound.below hole (by simp [h.holes])
  have hfirst := h.patchHere hfront
  have hmeant : first.1.place .functionStart = ⟨first.2.moved start, true⟩ := by
    rw [show first.2 = _ from snd_patch _ _ _ _]
    exact hfirst.place_eq rfl
  have hcursor : first.1.emitter.cursor = t'.emitter.cursor + first.2.growth := by
    rw [emitter_patch, snd_patch]
    exact Emitter.cursor_patch hbelow _
  have hmoved : start ≤ first.2.moved start ∧ first.2.moved start ≤ first.1.emitter.cursor := by
    unfold Patch.moved
    split <;> omega
  let place : Spot := ⟨first.2.moved start, true⟩
  have hback : place.position + (first.1.emitter.cursor - first.2.moved start) = first.1.emitter.cursor :=
    Nat.add_sub_cancel' hmoved.2
  have hpushed := Drafts.pushFunc hfirst.sound line hback rfl (by
    rw [hfirst.holes, hfirst.width]
    exact fun hole hhole => Nat.le_trans (hsound.below hole hhole) (Nat.le_trans hstart hmoved.1))
  rw [hmeant]
  have hall := hfirst.trans hpushed
  exact ⟨_, by omega, hall.release (List.mem_singleton_self _)⟩

/-- The jumps of a counting loop are filled: the one out of the loop, the one of the first round, and the
one to the next round. -/
theorem closeRounds {stopHole startHole continueHole stepStart stepSize : Nat} {s s' : Spot} {rest : List Nat}
    (h : Drafts t t' n (stopHole :: startHole :: continueHole :: rest) [(.stepStart, s), (.testStart, s')])
    (hfront : t.emitter.cursor < continueHole) (hs : s.position = stepStart)
    (hs' : s'.position = stepStart + stepSize) (hstart : startHole + t.emitter.width = stepStart)
    (hstop : stepStart + stepSize < stopHole) :
    let stopped := (t'.patch stopHole t'.emitter.cursor t'.here).1
    let skipped := stopped.patch startHole (stepStart + stepSize) (stopped.place .testStart)
    let patched := (skipped.1.release .testStart).patch continueHole (skipped.2.moved stepStart)
      (skipped.1.place .stepStart)
    ∃ m, n ≤ m ∧ Drafts t (patched.1.release .stepStart) m rest [] := by
  intro stopped
  have hstacked := h.sound.stacked
  simp only [h.holes, List.cons_append, List.pairwise_cons, List.mem_cons, h.width] at hstacked
  have hskip := hstacked.1 startHole (.inl rfl)
  have hcontinue := hstacked.2.1 continueHole (.inl rfl)
  have hbelow := h.sound.below stopHole (by simp [h.holes])
  have hstopped := h.patchHere (by omega)
  -- What is held lies in front of the first jump, and moves with the second one.
  have hstep : s.moved (t'.emitter.patch stopHole t'.emitter.cursor).2 = s :=
    Spot.moved_of_lt (show s.position < stopHole + t'.emitter.width by omega)
  have htest : s'.moved (t'.emitter.patch stopHole t'.emitter.cursor).2 = s' :=
    Spot.moved_of_lt (show s'.position < stopHole + t'.emitter.width by omega)
  simp only [List.map_cons, List.map_nil, Prod.map_apply, id, hstep, htest] at hstopped
  have hend : stopHole ≤ stopped.emitter.cursor := by
    rw [show stopped.emitter = _ from emitter_patch _ _ _ _, Emitter.cursor_patch hbelow]
    omega
  rw [show stopped.place .testStart = s' from hstopped.place_eq rfl]
  intro skipped
  have hfirst : s'.Before stopped.emitter.cursor := .inl (by omega)
  have hskipped := hstopped.patch (by omega) hfirst hs'.symm (by omega)
  have hwidth : stopped.emitter.width = t.emitter.width := hstopped.width
  have hgrown : skipped.2 = (stopped.emitter.patch startHole (stepStart + stepSize)).2 := snd_patch _ _ _ _
  have hpoint : skipped.2.position = startHole + stopped.emitter.width := congrArg Patch.position hgrown
  have hskippedCursor : skipped.1.emitter.cursor = stopped.emitter.cursor + skipped.2.growth := by
    rw [show skipped.1.emitter = _ from emitter_patch _ _ _ _, hgrown]
    exact Emitter.cursor_patch (by omega) _
  have hmoved : skipped.2.moved stepStart = stepStart + skipped.2.growth := if_pos (by omega)
  rw [show skipped.1.place .stepStart = s.moved skipped.2 from hgrown ▸ hskipped.place_eq rfl]
  intro patched
  have hreleased := hskipped.release (List.mem_cons_of_mem _ (List.mem_singleton_self _))
  have hbefore : (s.moved skipped.2).Before skipped.1.emitter.cursor := by
    rw [hskippedCursor]
    exact Spot.Before.moved (.inl (by omega)) (by omega)
  have htarget : skipped.2.moved stepStart = (s.moved skipped.2).position := (congrArg skipped.2.moved hs).symm
  have hpatched := hreleased.patch hfront hbefore htarget (by omega)
  exact ⟨_, by omega, hpatched.release (List.mem_singleton_self _)⟩

/-- What is written from the jump over the step of a counting loop on, up to the three jumps that are filled
behind its body. -/
theorem rounds {begun : Ledger} {f fStep f' : Ledger → Ledger} {g gStep g' : Emitter → Emitter}
    {leastStep least' continueHole : Nat} {rest : List Nat}
    (hbegun : Drafts t begun n (continueHole :: rest) []) (hfront : t.emitter.cursor < continueHole)
    (h : Keeps 1 g f) (hstep : Keeps leastStep gStep fStep) (h' : Keeps least' g' f')
    (testLine bodyLine : Nat) :
    let jumped := begun.jump testLine .jmp
    let stepStart := jumped.emitter.cursor
    let tested := (f ((jumped.hold .stepStart).hold .testStart)).hold .testEnd
    let turned := ((tested.seek stepStart (tested.place .stepStart)).release .stepStart).hold .stepStart
    let stepped := fStep turned
    let stepSize := stepped.emitter.cursor - stepStart
    let round := (stepped.seek (tested.emitter.cursor + stepSize) (stepped.place .testEnd)).release .testEnd
    let looped := f' (round.jump bodyLine .jmpFalse)
    let stopped := (looped.patch (round.emitter.cursor + 1) looped.emitter.cursor looped.here).1
    let skipped := stopped.patch (begun.emitter.cursor + 1) (stepStart + stepSize) (stopped.place .testStart)
    let patched := (skipped.1.release .testStart).patch continueHole (skipped.2.moved stepStart)
      (skipped.1.place .stepStart)
    ∃ m, n ≤ m ∧ Drafts t (patched.1.release .stepStart) m rest [] := by
  intro jumped stepStart tested turned stepped stepSize round looped
  have hown := Drafts.jump hbegun.sound testLine .jmp
  obtain ⟨m, s, s', hm, hs, hs', hround⟩ := insertStep hown.sound (strict_jump begun testLine .jmp)
    hown.holes (by rw [hown.cursor, hown.width]; omega) h hstep
  have hall := (hbegun.trans hown).trans hround
  have hjump := hall.trans (.jump hround.sound bodyLine .jmpFalse)
  obtain ⟨k, -, hlooped⟩ := hjump.piece h'
  have hstart : stepStart = begun.emitter.cursor + (1 + begun.emitter.width) := hown.cursor
  have hend : round.emitter.cursor = stepStart + m := hround.cursor
  have hreached : round.emitter.cursor = t.emitter.cursor + _ := hall.cursor
  have hm : stepSize < m := hm
  have hs : s.position = stepStart := hs
  have hs' : s'.position = stepStart + stepSize := hs'
  have hstill : ∀ {x : Spot} {a b : Nat} (p q : Nat), x.position < a → x.position < b →
      ((x.pushed a p).pushed b q).position = x.position := by
    intro x a b p q ha hb
    rw [Spot.pushed_of_lt ha, Spot.pushed_of_lt hb]
  obtain ⟨l, hl, hclosed⟩ := hlooped.closeRounds hfront
    ((hstill _ _ (by omega) (by omega)).trans hs) ((hstill _ _ (by omega) (by omega)).trans hs')
    (by rw [← hbegun.width, hstart]; omega) (Nat.lt_succ_of_lt (by rw [hend]; omega))
  exact ⟨l, by omega, hclosed⟩

end Drafts

end Ledger

end ScriptEngine.Code
