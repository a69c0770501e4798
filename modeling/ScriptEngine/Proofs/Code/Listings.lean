import ScriptEngine.Code.Listing
import ScriptEngine.Proofs.Code.Charts
/-!
Reading units from one instruction to the next.

`Reads` says that instructions stand one behind the other between two positions, and nothing else does. A unit
that was compiled is read so from the start of its code to its table of lines, its last instruction is an exit,
and all targets in it are among the instructions that were read (`decodes_of_compile`). A listing reads less
than a run does, since it stops at the table; reading looks at no byte behind an instruction (`read_extract`),
so the lines of the listing are the same instructions (`Decodes.lines?`).
-/

namespace ScriptEngine.Code

/-! ## Instructions one behind the other -/

/-- An instruction where it is read, with the positions behind its first operand and behind it. -/
structure Fetch where
  pos : Nat
  instr : Instr
  firstEnd : Nat
  next : Nat

/-- The targets of an instruction satisfy something. -/
def Fetch.Targets (f : Fetch) (P : Nat → Prop) : Prop :=
  match f.instr with
  | .jmp d | .jmpTrue d | .jmpNeutralTrue d | .jmpFalse d | .jmpNeutralFalse d => P (f.next + d)
  | .loop b c => P (f.firstEnd + b) ∧ P (f.next + c)
  | .pushFunc back => ∃ start, start + back = f.pos ∧ P start
  | _ => True

/-- From a position up to exactly `stop`, code reads as some instructions one behind the other. -/
inductive Reads (code : Array UInt8) (stop : Nat) : Nat → List Fetch → Prop
  | nil : Reads code stop stop []
  | cons {pos : Nat} {f : Fetch} {fs : List Fetch} (hpos : f.pos = pos)
    (hread : Decoded.read code f.pos = .instr f.instr f.firstEnd f.next) (hlt : f.pos < f.next)
    (hrest : Reads code stop f.next fs) : Reads code stop pos (f :: fs)

namespace Reads

variable {code : Array UInt8} {stop pos : Nat} {fs : List Fetch} {f : Fetch}

theorem length_le (h : Reads code stop pos fs) : pos + fs.length ≤ stop := by
  induction h with
  | nil => exact Nat.le_refl _
  | cons hpos _ hlt _ ih =>
    rw [List.length_cons]
    omega

/-- What was read, read again. -/
theorem mem (h : Reads code stop pos fs) (hf : f ∈ fs) :
    Decoded.read code f.pos = .instr f.instr f.firstEnd f.next ∧ f.pos < f.next ∧ f.next ≤ stop ∧ pos ≤ f.pos := by
  induction h with
  | nil => cases hf
  | @cons pos g fs hpos hread hlt hrest ih =>
    rcases List.mem_cons.mp hf with rfl | hf
    · have hle := hrest.length_le
      exact ⟨hread, hlt, by omega, by omega⟩
    · obtain ⟨hread', hlt', hle, hge⟩ := ih hf
      exact ⟨hread', hlt', hle, by omega⟩

theorem exists_first (h : Reads code stop pos fs) (hne : fs ≠ []) : ∃ f ∈ fs, f.pos = pos := by
  cases h with
  | nil => exact absurd rfl hne
  | cons hpos _ _ _ => exact ⟨_, List.mem_cons_self, hpos⟩

/-- Behind an instruction that is not the last one stands another one. -/
theorem exists_next (h : Reads code stop pos fs) (hf : f ∈ fs) :
    fs.getLast? = some f ∨ ∃ g ∈ fs, g.pos = f.next := by
  induction h with
  | nil => cases hf
  | @cons pos g fs hpos hread hlt hrest ih =>
    rcases List.mem_cons.mp hf with rfl | hf
    · by_cases hne : fs = []
      · subst hne
        exact .inl rfl
      · obtain ⟨g, hg, hpos'⟩ := hrest.exists_first hne
        exact .inr ⟨g, List.mem_cons_of_mem _ hg, hpos'⟩
    · obtain hlast | ⟨g, hg, hnext⟩ := ih hf
      · refine .inl ?_
        rw [List.getLast?_cons, hlast]
        rfl
      · exact .inr ⟨g, List.mem_cons_of_mem _ hg, hnext⟩

end Reads

/-! ## Units -/

/-- A unit reads as instructions from the start of its code to its table of lines; the last one is an exit, and
the targets of all are positions of instructions. -/
structure Decodes (unit : Array UInt8) (fs : List Fetch) : Prop where
  header : Decoded.read unit 0 = .instr .header 1 1
  code : ∃ header, Header.read? unit = some header ∧ Reads unit header.mapStart header.codeStart fs
  exit : ∃ f, fs.getLast? = some f ∧ f.instr = .exit
  targets : ∀ f ∈ fs, f.Targets fun pos => ∃ g ∈ fs, g.pos = pos

/-- A header says where the parts of its unit are, one behind the other. -/
theorem Header.bounds_of_read? {unit : Array UInt8} {header : Header} (h : Header.read? unit = some header) :
    headerSize < header.codeStart ∧ header.mapStart ≤ unit.size := by
  unfold Header.read? guard at h
  simp only [Option.bind_eq_bind, Option.bind_eq_some_iff] at h
  obtain ⟨_, _, total, _, codeStart, _, mapStart, _, _, hguard, hheader⟩ := h
  split at hguard
  · rename_i hgood
    cases hheader
    exact ⟨hgood.2.1, hgood.1 ▸ hgood.2.2.2⟩
  · cases hguard

namespace Decodes

variable {unit : Array UInt8} {fs : List Fetch} {f : Fetch}

/-- An instruction of a unit stands behind the header and in front of the table. -/
theorem mem (h : Decodes unit fs) (hf : f ∈ fs) :
    Decoded.read unit f.pos = .instr f.instr f.firstEnd f.next ∧ headerSize < f.pos ∧ f.pos < f.next
      ∧ f.next ≤ unit.size := by
  obtain ⟨header, hheader, hreads⟩ := h.code
  obtain ⟨hlow, hhigh⟩ := Header.bounds_of_read? hheader
  obtain ⟨hread, hlt, hle, hge⟩ := hreads.mem hf
  exact ⟨hread, by omega, hlt, by omega⟩

/-- Code goes on behind what is no exit. -/
theorem exists_next (h : Decodes unit fs) (hf : f ∈ fs) (hne : f.instr ≠ .exit) : ∃ g ∈ fs, g.pos = f.next := by
  obtain ⟨_, -, hreads⟩ := h.code
  obtain hlast | hnext := hreads.exists_next hf
  · obtain ⟨g, hg, hexit⟩ := h.exit
    rw [hlast] at hg
    cases hg
    exact absurd hexit hne
  · exact hnext

/-- Code starts with an instruction. -/
theorem exists_first (h : Decodes unit fs) {header : Header} (hheader : Header.read? unit = some header) :
    ∃ f ∈ fs, f.pos = header.codeStart := by
  obtain ⟨header', hheader', hreads⟩ := h.code
  rw [hheader] at hheader'
  cases hheader'
  refine hreads.exists_first ?_
  obtain ⟨f, hlast, -⟩ := h.exit
  rintro rfl
  cases hlast

end Decodes

/-! ## Compiled units -/

/-- What is read at a position, if that is an instruction. -/
def fetchAt (code : Array UInt8) (pos : Nat) : Fetch :=
  match Decoded.read code pos with
  | .instr i firstEnd next => ⟨pos, i, firstEnd, next⟩
  | _ => ⟨pos, .nop, pos, pos⟩

theorem fetchAt_eq {code : Array UInt8} {pos firstEnd next : Nat} {i : Instr}
    (h : Decoded.read code pos = .instr i firstEnd next) : fetchAt code pos = ⟨pos, i, firstEnd, next⟩ := by
  rw [fetchAt, h]

namespace Stands

variable {code : Array UInt8} {items : List Item} {place : Nat → Nat}

/-- Items that stand one behind the other are read so. -/
theorem reads (h : Stands code items place) {i n : Nat} (hn : i + n = items.length) :
    Reads code (place items.length) (place i) ((List.range' i n).map fun k => fetchAt code (place k)) := by
  induction n generalizing i with
  | zero =>
    obtain rfl : i = items.length := hn
    exact .nil
  | succ n ih =>
    have hi : i < items.length := by omega
    obtain ⟨ins, firstEnd, hread⟩ := (h.read (List.getElem?_eq_getElem hi)).exists_instr
    have hlt := h.lt hi
    rw [List.range'_succ, List.map_cons, fetchAt_eq hread]
    exact .cons rfl hread hlt (ih (by omega))

/-- The targets of items are items. -/
theorem targets (h : Stands code items place) (hclosed : Closed items) {i : Nat} (hi : i < items.length) :
    (fetchAt code (place i)).Targets fun pos => ∃ k < items.length, place k = pos := by
  have hitem := List.getElem?_eq_getElem hi
  have hpos := hclosed.length_pos
  have hwithin := hclosed.within hitem
  have hread := h.read hitem
  revert hitem hwithin hread
  generalize items[i] = item
  intro hitem hwithin hread
  cases item with
  | plain ins complete =>
    obtain ⟨firstEnd, hread⟩ := hread
    rw [fetchAt_eq hread]
    cases ins <;> trivial
  | jump j ahead =>
    obtain ⟨distance, hread, hplace⟩ := hread
    have hahead : i + 1 + ahead ≤ items.length - 1 := hwithin
    rw [fetchAt_eq hread]
    cases j <;> exact ⟨i + 1 + ahead, by omega, hplace.symm⟩
  | loop exit again =>
    obtain ⟨b, c, firstEnd, hread, hexit, hagain⟩ := hread
    obtain ⟨hlow, hhigh⟩ : i + 1 + exit ≤ items.length - 1 ∧ i + 1 + again ≤ items.length - 1 := hwithin
    rw [fetchAt_eq hread]
    exact ⟨⟨i + 1 + exit, by omega, hexit.symm⟩, i + 1 + again, by omega, hagain.symm⟩
  | func behind =>
    obtain ⟨back, firstEnd, hread, hback⟩ := hread
    rw [fetchAt_eq hread]
    exact ⟨place (i - behind), hback, i - behind, by omega, rfl⟩

end Stands

theorem Fetch.Targets.imp {f : Fetch} {P Q : Nat → Prop} (h : f.Targets P) (himp : ∀ pos, P pos → Q pos) :
    f.Targets Q := by
  unfold Fetch.Targets at *
  split at h
  case h_6 => exact ⟨himp _ h.1, himp _ h.2⟩
  case h_7 =>
    obtain ⟨start, hstart, hP⟩ := h
    exact ⟨start, hstart, himp _ hP⟩
  case h_8 => trivial
  all_goals exact himp _ h

/-- What a source that parses is compiled to. -/
theorem compiled_of_compile {filename source : String} {width : Nat} {unit : Array UInt8}
    (hcompile : compile filename source width = .ok unit) :
    ∃ items lines, Compiled unit filename items lines ∧ Closed items := by
  have hwidth : width ≤ Emitter.maxWidth := by
    by_contra hlt
    rw [compile, if_pos (by omega)] at hcompile
    cases hcompile
  cases hparse : Source.parseScript source with
  | error e =>
    rw [compile_eq_error hparse filename hwidth] at hcompile
    cases hcompile
  | ok script =>
    rcases compile_placed hparse filename hwidth with h | ⟨unit', hunit, hcompiled⟩
    · rw [h] at hcompile
      cases hcompile
    · obtain rfl : unit' = unit := Except.ok.inj (hunit.symm.trans hcompile)
      exact ⟨_, _, hcompiled, Shape.closed_script script⟩

/-- A compiled unit reads as instructions whose targets are among them. -/
theorem decodes_of_compile {filename source : String} {width : Nat} {unit : Array UInt8}
    (hcompile : compile filename source width = .ok unit) :
    unit.size < UInt32.size ∧ ∃ fs, Decodes unit fs := by
  obtain ⟨items, lines, hcompiled, hclosed⟩ := compiled_of_compile hcompile
  obtain ⟨place, header, hstands, hheader, hfirst, hlast⟩ := hcompiled.stands
  obtain ⟨cs, log, -, -, -, -, hassembled⟩ := hcompiled
  have hmem (f : Fetch) : f ∈ (List.range' 0 items.length).map (fun k => fetchAt unit (place k))
      ↔ ∃ k < items.length, fetchAt unit (place k) = f := by
    simp [List.mem_range'_1]
  have hpos (k : Nat) (hk : k < items.length) : (fetchAt unit (place k)).pos = place k := by
    obtain ⟨ins, firstEnd, hread⟩ := (hstands.read (List.getElem?_eq_getElem hk)).exists_instr
    rw [fetchAt_eq hread]
  refine ⟨hassembled.size, (List.range' 0 items.length).map fun k => fetchAt unit (place k), hassembled.read_header,
    ⟨header, hheader, ?_⟩, ?_, fun f hf => ?_⟩
  · rw [← hfirst, ← hlast]
    exact hstands.reads (Nat.zero_add _)
  · obtain ⟨front, rfl, -⟩ := hclosed
    obtain ⟨firstEnd, hread⟩ := hstands.read (i := front.length) List.getElem?_concat_length
    refine ⟨fetchAt unit (place front.length), ?_, by rw [fetchAt_eq hread]⟩
    rw [List.length_append, List.length_singleton, List.range'_concat, List.map_append, List.map_singleton,
      List.getLast?_concat, Nat.one_mul, Nat.zero_add]
  · obtain ⟨k, hk, rfl⟩ := (hmem f).mp hf
    refine (hstands.targets hclosed hk).imp fun pos hpos' => ?_
    obtain ⟨l, hl, rfl⟩ := hpos'
    exact ⟨_, (hmem _).mpr ⟨l, hl, rfl⟩, hpos l hl⟩

/-! ## Reading less -/

namespace Decoded

variable {code : Array UInt8} {stop pos firstEnd next : Nat} {i : Instr}

theorem getElem?_extract {k : Nat} (hk : k < stop) : (code.extract 0 stop)[k]? = code[k]? := by
  rw [Array.getElem?_extract, Nat.zero_add, Nat.sub_zero]
  split
  · rfl
  · rw [Array.getElem?_eq_none (by omega)]

theorem decodeGroupsAt_extract {groups v used : Nat}
    (h : Varint.decodeGroupsAt (fun k : Nat => code[k]?) pos groups = some (v, used)) (hle : pos + used ≤ stop) :
    0 < used ∧ Varint.decodeGroupsAt (fun k : Nat => (code.extract 0 stop)[k]?) pos groups = some (v, used) := by
  induction groups generalizing pos v used with
  | zero => cases h
  | succ groups ih =>
    unfold Varint.decodeGroupsAt at h ⊢
    cases hb : code[pos]? with
    | none =>
      rw [hb] at h
      cases h
    | some b =>
      simp only [hb] at h
      by_cases hsmall : b < 128
      · rw [if_pos hsmall] at h
        cases h
        simp only [getElem?_extract (Nat.lt_of_succ_le hle), hb, if_pos hsmall]
        exact ⟨Nat.one_pos, trivial⟩
      · rw [if_neg hsmall] at h
        obtain ⟨⟨rest, restUsed⟩, hrest, heq⟩ := Option.map_eq_some_iff.mp h
        cases heq
        obtain ⟨-, hless⟩ := ih hrest (by omega)
        simp only [getElem?_extract (show pos < stop by omega), hb, if_neg hsmall, hless]
        exact ⟨Nat.succ_pos _, rfl⟩

/-- A number operand that ends in front of `stop` is read without what is behind, if that goes for what follows. -/
theorem withNumber_extract {op : Op} {k k' : Nat → Nat → Decoded}
    (h : withNumber code op pos k = .instr i firstEnd next)
    (hk : ∀ v p, k v p = .instr i firstEnd next → p ≤ stop ∧ k' v p = .instr i firstEnd next) :
    pos ≤ stop ∧ withNumber (code.extract 0 stop) op pos k' = .instr i firstEnd next := by
  unfold withNumber at h
  split at h
  · rename_i v used hdecode
    obtain ⟨hle, hk'⟩ := hk v (pos + used) h
    obtain ⟨⟨w, used'⟩, hgroups, heq⟩ := Option.map_eq_some_iff.mp hdecode
    cases heq
    obtain ⟨-, hless⟩ := decodeGroupsAt_extract hgroups hle
    refine ⟨by omega, ?_⟩
    rw [withNumber, Varint.decodeAt, hless]
    exact hk'
  · cases h

theorem take?_extract {start length : Nat} {bytes : List UInt8} (h : take? code start length = some bytes)
    (hle : start + length ≤ stop) : take? (code.extract 0 stop) start length = some bytes := by
  unfold take? at *
  split at h
  · rename_i hroom
    cases h
    rw [if_pos (by rw [Array.size_extract]; omega), Array.extract_extract, Nat.zero_add, Nat.zero_add,
      Nat.min_eq_left hle]
  · cases h

/-- So is a text operand. -/
theorem withText_extract {op : Op} {k k' : List UInt8 → Nat → Decoded}
    (h : withText code op pos k = .instr i firstEnd next)
    (hk : ∀ text p, k text p = .instr i firstEnd next → p ≤ stop ∧ k' text p = .instr i firstEnd next) :
    pos ≤ stop ∧ withText (code.extract 0 stop) op pos k' = .instr i firstEnd next := by
  refine withNumber_extract h fun length start hstart => ?_
  split at hstart
  · rename_i text htake
    obtain ⟨hle, hk'⟩ := hk text (start + length) hstart
    rw [take?_extract htake hle]
    exact ⟨by omega, hk'⟩
  · cases hstart

/-- Reading an instruction looks at nothing behind it. -/
theorem read_extract (h : read code pos = .instr i firstEnd next) (hnext : next ≤ stop) :
    read (code.extract 0 stop) pos = .instr i firstEnd next := by
  unfold read at *
  split at h
  · cases h
  · rename_i b hb
    split at h
    · cases h
    · rename_i op hop
      have hoperands : pos + 1 ≤ stop
          ∧ operands (code.extract 0 stop) op (pos + 1) = .instr i firstEnd next := by
        cases op with
        | jmp | jmpTrue | jmpNeutralTrue | jmpFalse | jmpNeutralFalse | pushInt | pushFunc =>
          simp only [operands] at h ⊢
          refine withNumber_extract h fun v p hp => ?_
          cases hp
          exact ⟨hnext, rfl⟩
        | loop =>
          simp only [operands] at h ⊢
          refine withNumber_extract h fun b after hafter => withNumber_extract hafter fun c p hp => ?_
          cases hp
          exact ⟨hnext, rfl⟩
        | pushStr =>
          simp only [operands] at h ⊢
          refine withText_extract h fun text p hp => ?_
          cases hp
          exact ⟨hnext, rfl⟩
        | setArg =>
          simp only [operands] at h ⊢
          refine withNumber_extract h fun index after hafter => withText_extract hafter fun name p hp => ?_
          cases hp
          exact ⟨hnext, rfl⟩
        | pushDbl =>
          simp only [operands] at h ⊢
          split at h
          · rename_i bytes htake
            cases h
            rw [take?_extract htake hnext]
            exact ⟨by omega, rfl⟩
          · cases h
        | expr =>
          simp only [operands] at h ⊢
          split at h
          · rename_i b' hb'
            split at h
            · rename_i o ho
              cases h
              simp only [getElem?_extract (Nat.lt_of_succ_le hnext), hb', ho]
              exact ⟨by omega, trivial⟩
            · cases h
          · cases h
        | _ =>
          cases h
          exact ⟨hnext, rfl⟩
      simp only [getElem?_extract (Nat.lt_of_succ_le hoperands.1), hb, hop]
      exact hoperands.2

end Decoded

/-! ## Listings -/

/-- The line of an instruction of a unit that starts at an offset. -/
def Fetch.Prints (base : Nat) (f : Fetch) (line : String) : Prop :=
  ∃ text, Listing.operandsOf f.instr base f.pos f.firstEnd f.next = .operands text
    ∧ line = toString (base + f.pos) ++ "\t" ++ f.instr.op.name ++ text

/-- The line of the header of a unit that starts at an offset. -/
def Header.line (unit : Array UInt8) (h : Header) (base : Nat) : String :=
  toString base ++ "\t" ++ Op.header.name ++ "  [" ++ Text.Utf8.decodeLossy
    (unit.extract headerSize (h.codeStart - 1)).toList ++ "] size:" ++ toString h.total
    ++ " code:" ++ toString h.codeStart ++ " map:" ++ toString h.mapStart

/-- Instructions that have lines are listed one behind the other, up to where the code ends. -/
theorem Reads.linesFrom {code : Array UInt8} {stop pos : Nat} {fs : List Fetch} (h : Reads code stop pos fs)
    (hstop : stop ≤ code.size) {base : Nat} (hprints : ∀ f ∈ fs, ∃ line, f.Prints base line) {steps : Nat}
    (hsteps : fs.length ≤ steps) :
    ∃ lines, Listing.linesFrom (code.extract 0 stop) base pos steps = some lines
      ∧ List.Forall₂ (Fetch.Prints base) fs lines := by
  have hsize : (code.extract 0 stop).size = stop := by
    rw [Array.size_extract]
    omega
  induction h generalizing steps with
  | nil =>
    refine ⟨[], ?_, .nil⟩
    cases steps with
    | zero => rfl
    | succ steps => rw [Listing.linesFrom, if_pos (Nat.le_of_eq hsize)]
  | @cons pos f fs hpos hread hlt hrest ih =>
    subst hpos
    have hle := hrest.length_le
    obtain ⟨steps, rfl⟩ : ∃ s, steps = s + 1 := ⟨steps - 1, by rw [List.length_cons] at hsteps; omega⟩
    obtain ⟨lines, hlines, hall⟩ := ih (fun g hg => hprints g (List.mem_cons_of_mem _ hg)) (Nat.le_of_succ_le_succ hsteps)
    obtain ⟨line, text, htext, hline⟩ := hprints f List.mem_cons_self
    refine ⟨line :: lines, ?_, .cons ⟨text, htext, hline⟩ hall⟩
    rw [Listing.linesFrom, if_neg (by omega)]
    simp only [Decoded.read_extract hread (show f.next ≤ stop by omega), htext, hlines, hline]
    rfl

namespace Decodes

variable {unit : Array UInt8} {fs : List Fetch} {f : Fetch} {base : Nat}

/-- All targets are offsets, so every instruction has a line. -/
theorem exists_prints (h : Decodes unit fs) (hbase : base + unit.size ≤ UInt64.size) (hf : f ∈ fs) :
    ∃ line, f.Prints base line := by
  have hoffset {n pos : Nat} (hn : n = base + pos) (hpos : ∃ g ∈ fs, g.pos = pos) : Listing.offset? n = some n := by
    obtain ⟨g, hg, rfl⟩ := hpos
    obtain ⟨-, -, hlt, hle⟩ := h.mem hg
    exact if_pos (by omega)
  suffices ∃ text, Listing.operandsOf f.instr base f.pos f.firstEnd f.next = .operands text by
    obtain ⟨text, htext⟩ := this
    exact ⟨_, text, htext, rfl⟩
  have htargets := h.targets f hf
  unfold Fetch.Targets at htargets
  unfold Listing.operandsOf
  cases hinstr : f.instr with
  | jmp d | jmpTrue d | jmpNeutralTrue d | jmpFalse d | jmpNeutralFalse d =>
    rw [hinstr] at htargets
    simp only [Listing.target, hoffset (Nat.add_assoc base f.next d) htargets]
    exact ⟨_, rfl⟩
  | loop b c =>
    rw [hinstr] at htargets
    simp only [hoffset (Nat.add_assoc base f.firstEnd b) htargets.1, hoffset (Nat.add_assoc base f.next c) htargets.2]
    exact ⟨_, rfl⟩
  | pushFunc back =>
    rw [hinstr] at htargets
    obtain ⟨start, hstart, -⟩ := htargets
    simp only [if_pos (show back ≤ base + f.pos by omega)]
    exact ⟨_, rfl⟩
  | _ => exact ⟨_, rfl⟩

/-- A unit is listed as the line of its header and a line for each instruction. -/
theorem lines? (h : Decodes unit fs) (hbase : base + unit.size ≤ UInt64.size) :
    ∃ header lines, Header.read? unit = some header
      ∧ Listing.lines? unit base = some (header.line unit base :: lines)
      ∧ List.Forall₂ (Fetch.Prints base) fs lines := by
  obtain ⟨header, hheader, hreads⟩ := h.code
  obtain ⟨-, hstop⟩ := Header.bounds_of_read? hheader
  have hroom : fs.length ≤ (unit.extract 0 header.mapStart).size := by
    have hlength := hreads.length_le
    rw [Array.size_extract]
    omega
  obtain ⟨lines, hlines, hall⟩ := hreads.linesFrom hstop (fun f hf => h.exists_prints hbase hf) hroom
  refine ⟨header, lines, hheader, ?_, hall⟩
  unfold Listing.lines?
  simp only [hheader, hlines]
  rfl

end Decodes

/-! ## Programs -/

theorem exists_mem_of_forall₂ {α β : Type} {R : α → β → Prop} {xs : List α} {ys : List β}
    (h : List.Forall₂ R xs ys) {x : α} (hx : x ∈ xs) : ∃ y ∈ ys, R x y := by
  induction h with
  | nil => cases hx
  | @cons a b xs ys hab _ ih =>
    rcases List.mem_cons.mp hx with rfl | hx
    · exact ⟨b, List.mem_cons_self, hab⟩
    · obtain ⟨y, hy, hR⟩ := ih hx
      exact ⟨y, List.mem_cons_of_mem _ hy, hR⟩

namespace Program

variable {p : Program} {base : Nat} {unit : Array UInt8} {fs : List Fetch}

/-- Every part was compiled from a source. -/
def Sourced (p : Program) : Prop :=
  ∀ part ∈ p.parts, ∃ filename source width, compile filename source width = .ok part.data

/-- Some offset is that of an instruction. -/
def InstrAt (p : Program) (o : Nat) : Prop :=
  ∃ base unit fs f, p.Has base unit ∧ Decodes unit fs ∧ f ∈ fs ∧ base + f.pos = o

/-- A program of units that read as instructions, and whose offsets are machine words. -/
structure Readable (p : Program) : Prop where
  committed : p.Committed
  small : p.size ≤ UInt64.size
  units : ∀ {base unit}, p.Has base unit → ∃ fs, Decodes unit fs

theorem readable_of_sourced (hp : p.Committed) (hsourced : p.Sourced) (hsmall : p.size ≤ UInt64.size) :
    p.Readable := by
  refine ⟨hp, hsmall, fun {base unit} h => ?_⟩
  obtain ⟨part, hpart, rfl, rfl⟩ := h
  obtain ⟨filename, source, width, hcompile⟩ := hsourced part hpart
  exact (decodes_of_compile hcompile).2

/-- Instructions stand behind the header of the first unit. -/
theorem one_lt_of_instrAt {o : Nat} (h : p.InstrAt o) : 1 < o := by
  obtain ⟨base, unit, fs, f, -, hdecodes, hf, rfl⟩ := h
  obtain ⟨-, hlow, -⟩ := hdecodes.mem hf
  have : headerSize = 13 := rfl
  omega

/-- The lines of all units, unit by unit. -/
def lines? (p : Program) : Option (List (List String)) :=
  p.parts.toList.mapM fun part => Listing.lines? part.data part.start

theorem ofProgram?_eq (p : Program) :
    Listing.ofProgram? p = p.lines?.map fun all => Listing.text all.flatten := rfl

/-- All units are listed, each with a line for its header and one for each of its instructions. -/
theorem Readable.exists_lines (hp : p.Readable) :
    ∃ all, p.lines? = some all ∧ ∀ {base unit fs}, p.Has base unit → Decodes unit fs →
      ∃ header lines, Header.read? unit = some header ∧ (header.line unit base :: lines) ∈ all
        ∧ List.Forall₂ (Fetch.Prints base) fs lines := by
  have hlisted {base unit fs} (h : p.Has base unit) (hdecodes : Decodes unit fs) :=
    hdecodes.lines? (Nat.le_trans (hp.committed.stop_le h) hp.small)
  have hsome : p.lines?.isSome := by
    rw [lines?, mapM_isSome]
    intro part hpart
    have hhas : p.Has part.start part.data := ⟨part, Array.mem_toList_iff.mp hpart, rfl, rfl⟩
    obtain ⟨fs, hdecodes⟩ := hp.units hhas
    obtain ⟨header, lines, -, hlines, -⟩ := hlisted hhas hdecodes
    rw [hlines]
    rfl
  obtain ⟨all, hall⟩ := Option.isSome_iff_exists.mp hsome
  refine ⟨all, hall, fun {base unit fs} h hdecodes => ?_⟩
  obtain ⟨header, lines, hheader, hlines, hprints⟩ := hlisted h hdecodes
  refine ⟨header, lines, hheader, ?_, hprints⟩
  obtain ⟨part, hpart, rfl, rfl⟩ := h
  obtain ⟨listed, hin, heq⟩ := exists_mem_of_forall₂ (mapM_eq_some.mp hall) (Array.mem_toList_iff.mpr hpart)
  rw [hlines] at heq
  cases heq
  exact hin

end Program

end ScriptEngine.Code
