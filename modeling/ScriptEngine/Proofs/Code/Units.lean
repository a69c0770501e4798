import Mathlib.Data.List.Forall2
import Mathlib.Data.Option.Basic
import ScriptEngine.Proofs.Code.Shape
/-!
What a unit of compiled code holds.

A unit reads back as what it was assembled of: its header gives the three numbers, the code stands where
they say, and the table of lines gives the line of every instruction (`Assembled`). The main statement
is `compile_placed`: compiling a program that parses gives, at every width, a unit that holds the items of
the program on the lines where its marks are placed, unless the unit would be too large.
-/

namespace ScriptEngine.Code

/-! ## Words of a header -/

theorem wordOf_wordBytes {n : Nat} (h : n < UInt32.size) : Instr.wordOf (Header.wordBytes n) = n := by
  have hlt : n < 2 ^ 32 := h
  have hbyte : ∀ k, (UInt8.ofNat (n >>> k)).toNat = n / 2 ^ k % 256 := by
    intro k
    rw [UInt8.toNat_ofNat', Nat.shiftRight_eq_div_pow]
  have hrange : List.range 4 = [0, 1, 2, 3] := rfl
  simp only [Instr.wordOf, Header.wordBytes, hrange, List.map_cons, List.map_nil, List.foldr_cons,
    List.foldr_nil, hbyte, Nat.reduceMul, Nat.reducePow]
  omega

@[simp] theorem length_wordBytes (n : Nat) : (Header.wordBytes n).length = 4 := by
  simp [Header.wordBytes]

/-- A word is read from where its bytes stand. -/
theorem word?_of_spells {unit : Array UInt8} {i n : Nat} (h : n < UInt32.size)
    (hspells : Spells unit (1 + 4 * i) (Header.wordBytes n)) (hsize : 1 + 4 * i ≤ unit.size) :
    Header.word? unit i = some n := by
  have hlength := hspells.length_le hsize
  rw [length_wordBytes] at hlength
  have hbytes : (unit.extract (1 + 4 * i) (1 + 4 * i + 4)).toList = Header.wordBytes n := by
    have htake := hspells.take? (by simp [Header.wordBytes])
    rw [length_wordBytes, Decoded.take?, if_pos hlength] at htake
    exact Option.some.inj htake
  unfold Header.word?
  simp only [hlength, if_true, hbytes, wordOf_wordBytes h]

/-! ## Tables of lines -/

/-- The line that is read where a line was written. Lines that fit 32 bits are read as they are. -/
def readLine? (line : Nat) : Option Nat :=
  if Varint.length line ≤ Varint.maxLength ∧ line % UInt64.size < UInt32.size then
    some (line % UInt64.size)
  else none

/-- A number of more than ten groups is not read. -/
theorem decodeGroups_eq_none {v width groups : Nat} (h : groups < width) (rest : List UInt8) :
    Varint.decodeGroups groups (Varint.encodePadded v width ++ rest) = none := by
  induction groups generalizing v width with
  | zero => rfl
  | succ groups ih =>
    obtain ⟨width, rfl⟩ : ∃ k, width = k + 2 := ⟨width - 2, by omega⟩
    have hbyte : (UInt8.ofNat (v % 128 + 128)).toNat = v % 128 + 128 := by
      rw [UInt8.toNat_ofNat']
      omega
    rw [Varint.encodePadded, List.cons_append, Varint.decodeGroups, if_neg, ih (by omega)]
    · rfl
    · rw [UInt8.lt_iff_toNat_lt, hbyte]
      have : (128 : UInt8).toNat = 128 := rfl
      omega

theorem decode_encode_eq (v : Nat) (rest : List UInt8) :
    Varint.decode (Varint.encode v ++ rest)
      = if Varint.length v ≤ Varint.maxLength then some (v % UInt64.size, Varint.length v) else none := by
  unfold Varint.decode Varint.encode
  split_ifs with h
  · rw [Varint.decodeGroups_encodePadded (Nat.le_refl _) h]
    rfl
  · rw [decodeGroups_eq_none (by omega)]
    rfl

/-- Entries whose offsets rise, from a previous one on. -/
def RisesFrom (previous : Nat) : List LineEntry → Prop
  | [] => True
  | e :: rest => previous ≤ e.offset ∧ RisesFrom e.offset rest

/-- The entry that is read where an entry was written. -/
def readRow? (base : Nat) (e : LineEntry) : Option LineEntry :=
  (readLine? e.line).map fun line => ⟨base + e.offset, line⟩

theorem length_encodeFrom_pos (previous : Nat) (e : LineEntry) (rest : List LineEntry) :
    LineTable.encodeFrom previous (e :: rest) ≠ [] := by
  intro h
  have hlength := congrArg List.length h
  simp only [LineTable.encodeFrom, List.length_append, Varint.length_encode, List.length_nil] at hlength
  have := Varint.length_pos (e.offset - previous)
  omega

/-- The pairs of a table are read back one by one. -/
theorem decodePairs_encodeFrom {lines : List LineEntry} {base previous bound : Nat}
    (hrises : RisesFrom previous lines) (hbound : ∀ e ∈ lines, e.offset < bound)
    (hsize : bound ≤ UInt64.size) {limit : Nat}
    (hlimit : (LineTable.encodeFrom previous lines).length ≤ limit) :
    LineTable.decodePairs (base + previous) (LineTable.encodeFrom previous lines) limit
      = lines.mapM (readRow? base) := by
  induction lines generalizing previous limit with
  | nil =>
    cases limit <;> rfl
  | cons e lines ih =>
    obtain ⟨hle, hrest⟩ := hrises
    have hpos := length_encodeFrom_pos previous e lines
    have hnonempty : (LineTable.encodeFrom previous (e :: lines)).isEmpty = false := by simpa using hpos
    obtain ⟨limit, rfl⟩ : ∃ k, limit = k + 1 :=
      ⟨limit - 1, by have := List.length_pos_iff.mpr hpos; omega⟩
    have hoffset : e.offset < bound := hbound e List.mem_cons_self
    have hdelta : e.offset - previous < UInt64.size := by omega
    have hdecode : Varint.decode (LineTable.encodeFrom previous (e :: lines))
        = some (e.offset - previous, Varint.length (e.offset - previous)) := by
      rw [LineTable.encodeFrom, List.append_assoc]
      exact Varint.decode_encode hdelta _
    have hdrop : (LineTable.encodeFrom previous (e :: lines)).drop (Varint.length (e.offset - previous))
        = Varint.encode e.line ++ LineTable.encodeFrom e.offset lines := by
      rw [LineTable.encodeFrom, List.append_assoc, List.drop_left' (Varint.length_encode _)]
    have hplace : base + previous + (e.offset - previous) = base + e.offset := by omega
    rw [LineTable.decodePairs, hnonempty]
    simp only [Bool.false_eq_true, if_false, hdecode, hdrop, Option.bind_eq_bind, Option.bind_some,
      decode_encode_eq, List.mapM_cons, readRow?, readLine?]
    by_cases hlength : Varint.length e.line ≤ Varint.maxLength
    · have hdrop' : (LineTable.encodeFrom previous (e :: lines)).drop
          (Varint.length (e.offset - previous) + Varint.length e.line)
          = LineTable.encodeFrom e.offset lines := by
        rw [← List.drop_drop, hdrop, List.drop_left' (Varint.length_encode _)]
      have hlimit' : (LineTable.encodeFrom e.offset lines).length ≤ limit := by
        simp only [LineTable.encodeFrom, List.length_append, Varint.length_encode] at hlimit
        have := Varint.length_pos (e.offset - previous)
        omega
      simp only [hlength, if_true, Option.bind_some, hdrop', hplace, true_and]
      rw [ih hrest (fun f hf => hbound f (List.mem_cons_of_mem _ hf)) hlimit']
      by_cases hline : e.line % UInt64.size < UInt32.size
      · unfold guard
        simp [hline]
      · unfold guard
        simp [hline]
    · simp [hlength]

/-- A table is read back from its bytes. -/
theorem decode?_encode {lines : List LineEntry} {bound : Nat} (hrises : RisesFrom 0 lines)
    (hbound : ∀ e ∈ lines, e.offset < bound) (hsize : bound ≤ UInt64.size)
    (hlength : (LineTable.encode lines).length < UInt64.size) (codeStart : Nat) :
    LineTable.decode? (LineTable.encode lines) codeStart = lines.mapM (readRow? codeStart) := by
  have hpairs : (LineTable.encodeFrom 0 lines).length < UInt64.size := by
    simp only [LineTable.encode, List.length_append, Varint.length_encode] at hlength
    omega
  have hdecode : Varint.decode (LineTable.encode lines)
      = some ((LineTable.encodeFrom 0 lines).length, Varint.length (LineTable.encodeFrom 0 lines).length) :=
    Varint.decode_encode hpairs _
  have hdrop : (LineTable.encode lines).drop (Varint.length (LineTable.encodeFrom 0 lines).length)
      = LineTable.encodeFrom 0 lines := by
    rw [LineTable.encode, List.drop_left' (Varint.length_encode _)]
  unfold LineTable.decode? guard
  simp only [hdecode, Option.bind_eq_bind, Option.bind_some, hdrop, Nat.le_refl, if_true,
    List.take_length]
  have hread := @decodePairs_encodeFrom lines codeStart 0 bound hrises hbound hsize _ (Nat.le_refl _)
  rw [Nat.add_zero] at hread
  exact hread

/-- Reading entries gives one for each of them, or fails at one of them. -/
theorem mapM_eq_some {α β : Type} {f : α → Option β} {xs : List α} {ys : List β} :
    xs.mapM f = some ys ↔ List.Forall₂ (fun x y => f x = some y) xs ys := by
  induction xs generalizing ys with
  | nil => simp [eq_comm]
  | cons x xs ih =>
    rw [List.mapM_cons]
    constructor
    · intro h
      obtain ⟨y, hy, h⟩ := Option.bind_eq_some_iff.mp h
      obtain ⟨ys', hys, h⟩ := Option.bind_eq_some_iff.mp h
      obtain rfl : y :: ys' = ys := Option.some.inj h
      exact .cons hy (ih.mp hys)
    · rintro (_ | ⟨hy, hys⟩)
      simp only [hy, ih.mpr hys, Option.bind_eq_bind, Option.bind_some]
      rfl

theorem mapM_isSome {α β : Type} {f : α → Option β} {xs : List α} :
    (xs.mapM f).isSome ↔ ∀ x ∈ xs, (f x).isSome := by
  induction xs with
  | nil => simp
  | cons x xs ih =>
    rw [List.mapM_cons, List.forall_mem_cons, ← ih]
    cases f x <;> cases xs.mapM f <;> simp

namespace LineLog

/-- An ascending log, read from its end, has rising offsets. -/
theorem Ascending.risesFrom {log : LineLog} (h : log.Ascending) (previous : Nat)
    (hprevious : ∀ e ∈ log, previous ≤ e.offset) : RisesFrom previous log.reverse := by
  have hrises : ∀ (entries : List LineEntry) (previous : Nat), (∀ e ∈ entries, previous ≤ e.offset) →
      entries.Pairwise (fun a b => a.offset < b.offset) → RisesFrom previous entries := by
    intro entries
    induction entries with
    | nil => exact fun _ _ _ => trivial
    | cons e entries ih =>
      intro previous hle hpair
      obtain ⟨hless, hpair⟩ := List.pairwise_cons.mp hpair
      exact ⟨hle e List.mem_cons_self, ih e.offset (fun f hf => Nat.le_of_lt (hless f hf)) hpair⟩
  refine hrises _ _ (fun e he => hprevious e (List.mem_reverse.mp he)) ?_
  rw [List.pairwise_reverse]
  exact h

/-- The lines of the entries are the lines that are covered. -/
theorem Covers.forall_line {log : LineLog} {lines : List Nat} (h : log.Covers lines) {P : Nat → Prop} :
    (∀ e ∈ log, P e.line) ↔ ∀ l ∈ lines, P l := by
  constructor
  · intro hlog l hl
    obtain ⟨offset, hoffset, rfl⟩ := List.getElem_of_mem hl
    have hline := h.lineAt offset hoffset
    rw [List.getElem?_eq_getElem hoffset, lineAt?] at hline
    obtain ⟨e, he, hel⟩ := Option.map_eq_some_iff.mp hline
    rw [← hel]
    exact hlog e (List.mem_of_find?_eq_some he)
  · intro hlines e he
    have hinside := h.inside e he
    have hline := h.lineAt e.offset hinside
    have hself : log.lineAt? e.offset = some e.line := by
      have hascending := h.ascending
      clear h hinside hline hlines
      induction log with
      | nil => cases he
      | cons f log ih =>
        obtain ⟨hless, hlog⟩ := ascending_cons.mp hascending
        rw [lineAt?_cons]
        rcases List.mem_cons.mp he with rfl | he
        · rw [if_pos (Nat.le_refl _)]
        · have := hless e he
          rw [if_neg (by omega), ih he hlog]
    rw [hself, List.getElem?_eq_getElem hinside] at hline
    rw [Option.some.inj hline]
    exact hlines _ (List.getElem_mem hinside)

/-- The lines of a table that was read are those of the log that was written. -/
theorem lineAt_of_forall₂ {log : LineLog} {table : List LineEntry} {base offset line : Nat}
    (h : List.Forall₂ (fun e f => readRow? base e = some f) log table)
    (hline : log.lineAt? offset = some line) :
    ∃ read, readLine? line = some read ∧ LineTable.lineAt table.reverse (base + offset) = read := by
  have hfind : ∃ f, table.find? (fun f => f.offset ≤ base + offset) = some f
      ∧ readLine? line = some f.line := by
    induction h with
    | nil => simp [lineAt?] at hline
    | @cons e f log table hef hrest ih =>
      obtain ⟨read, hread, rfl⟩ := Option.map_eq_some_iff.mp hef
      rw [lineAt?_cons] at hline
      by_cases hle : e.offset ≤ offset
      · rw [if_pos hle] at hline
        obtain rfl := Option.some.inj hline
        exact ⟨⟨base + e.offset, read⟩, by simp [List.find?, hle], hread⟩
      · rw [if_neg hle] at hline
        obtain ⟨f, hf, hfl⟩ := ih hline
        refine ⟨f, ?_, hfl⟩
        simpa [List.find?, hle] using hf
  obtain ⟨f, hf, hfl⟩ := hfind
  refine ⟨f.line, hfl, ?_⟩
  simp only [LineTable.lineAt, List.reverse_reverse, hf]

end LineLog

/-! ## Units -/

/-- The bytes of a file name in a unit. -/
def nameBytes (filename : String) : List UInt8 :=
  Text.bytesOf (String.ofList (filename.toList.filter fun c => c != Char.ofNat 0))

/-- Where the code of a unit starts. -/
def codeStartOf (filename : String) : Nat :=
  headerSize + (nameBytes filename).length + 1

/-- The unit would be too large. -/
def unitTooLarge : Error := .internal "bytecode unit is too large"

/-- What a unit holds: a header, a name, code, and a table of lines. -/
structure Assembled (unit : Array UInt8) (filename : String) (bytes : List UInt8) (lines : List LineEntry) :
    Prop where
  size : unit.size < UInt32.size
  length : codeStartOf filename + bytes.length + (LineTable.encode lines).length = unit.size
  header : Header.read? unit
    = some ⟨unit.size, codeStartOf filename, codeStartOf filename + bytes.length⟩
  name : (unit.extract headerSize (codeStartOf filename - 1)).toList = nameBytes filename
  zero : unit[codeStartOf filename - 1]? = some 0
  code : Spells unit (codeStartOf filename) bytes
  table : (unit.extract (codeStartOf filename + bytes.length) unit.size).toList = LineTable.encode lines

theorem extract_eq_of_spells {unit : Array UInt8} {start stop : Nat} {bytes : List UInt8}
    (h : Spells unit start bytes) (hstop : stop = start + bytes.length) :
    (unit.extract start stop).toList = bytes := by
  rw [hstop, Array.toList_extract, List.extract_eq_take_drop, Nat.add_sub_cancel_left]
  exact (List.prefix_iff_eq_take.mp h).symm

theorem assembled_of_eq_ok {filename : String} {code : List UInt8} {lines : List LineEntry}
    {unit : Array UInt8} (h : assemble filename code lines = .ok unit) :
    Assembled unit filename code lines := by
  unfold assemble at h
  dsimp only at h
  split at h
  case isFalse => cases h
  case isTrue htotal =>
    have hunit := (Except.ok.inj h).symm
    have hname : codeStartOf filename = 13 + (nameBytes filename).length + 1 := rfl
    have hspells := spells_toArray ([Op.header.toByte]
      ++ (Header.wordBytes (codeStartOf filename + code.length + (LineTable.encode lines).length)
      ++ (Header.wordBytes (codeStartOf filename) ++ (Header.wordBytes (codeStartOf filename + code.length)
      ++ (nameBytes filename ++ ([0] ++ (code ++ LineTable.encode lines)))))))
    have hbytes : unit = ([Op.header.toByte]
      ++ (Header.wordBytes (codeStartOf filename + code.length + (LineTable.encode lines).length)
      ++ (Header.wordBytes (codeStartOf filename) ++ (Header.wordBytes (codeStartOf filename + code.length)
      ++ (nameBytes filename ++ ([0] ++ (code ++ LineTable.encode lines))))))).toArray := by
      rw [hunit]
      congr 1
      simp [codeStartOf, nameBytes]
    rw [← hbytes] at hspells
    have hlength : codeStartOf filename + code.length + (LineTable.encode lines).length = unit.size := by
      rw [hbytes, hname]
      simp
      omega
    have hsmall : unit.size < UInt32.size := by
      rw [← hlength]
      exact htotal
    obtain ⟨hheader, hspells⟩ := spells_append.mp hspells
    obtain ⟨hword0, hspells⟩ := spells_append.mp hspells
    obtain ⟨hword1, hspells⟩ := spells_append.mp hspells
    obtain ⟨hword2, hspells⟩ := spells_append.mp hspells
    obtain ⟨hnameSpells, hspells⟩ := spells_append.mp hspells
    obtain ⟨hzero, hspells⟩ := spells_append.mp hspells
    obtain ⟨hcode, htable⟩ := spells_append.mp hspells
    simp only [List.length_singleton, length_wordBytes, Nat.zero_add, Nat.reduceAdd]
      at hword0 hword1 hword2 hnameSpells hzero hcode htable
    have hstart : 13 + (nameBytes filename).length + 1 = codeStartOf filename := hname.symm
    rw [hstart] at hcode htable
    have hheader? : Header.read? unit
        = some ⟨unit.size, codeStartOf filename, codeStartOf filename + code.length⟩ := by
      have h0 := word?_of_spells (i := 0) (by omega) hword0 (by omega)
      have h1 := word?_of_spells (i := 1) (by omega) hword1 (by omega)
      have h2 := word?_of_spells (i := 2) (by omega) hword2 (by omega)
      rw [hlength] at h0
      have hordered : unit.size = unit.size ∧ headerSize < codeStartOf filename
          ∧ codeStartOf filename ≤ codeStartOf filename + code.length
          ∧ codeStartOf filename + code.length ≤ unit.size := by
        have : headerSize = 13 := rfl
        omega
      unfold Header.read? guard
      simp only [hheader.getElem?, h0, h1, h2, if_true, hordered, and_self, Option.bind_eq_bind,
        Option.bind_some, pure]
    refine ⟨hsmall, hlength, hheader?, extract_eq_of_spells hnameSpells (by
      have : headerSize = 13 := rfl
      omega), ?_, hcode, extract_eq_of_spells htable hlength.symm⟩
    rw [hname, Nat.add_sub_cancel]
    exact hzero.getElem?

/-- A unit reads as a part exactly if its name holds no zero and its lines can be read. -/
theorem Assembled.ofUnit?_eq {unit : Array UInt8} {filename : String} {bytes : List UInt8} {log : LineLog}
    {lines : List Nat} (h : Assembled unit filename bytes log.reverse) (hcovers : log.Covers lines)
    (hlength : lines.length = bytes.length) (start : Nat) :
    Part.ofUnit? unit start
      = if 0 ∈ nameBytes filename then none
        else (log.reverse.mapM (readRow? (codeStartOf filename))).map fun table =>
          ⟨start, unit, Text.Utf8.decodeLossy (nameBytes filename), codeStartOf filename, table, none⟩ := by
  have hsize := h.size
  have htotal := h.length
  have h64 : UInt32.size ≤ UInt64.size := by decide
  have htable : LineTable.decode? (LineTable.encode log.reverse) (codeStartOf filename)
      = log.reverse.mapM (readRow? (codeStartOf filename)) :=
    @decode?_encode _ lines.length (hcovers.ascending.risesFrom 0 fun _ _ => Nat.zero_le _)
      (fun e he => hcovers.inside e (List.mem_reverse.mp he)) (by omega) (by omega) _
  unfold Part.ofUnit? guard
  simp only [h.header, Option.bind_eq_bind, Option.bind_some, h.name, h.zero, h.table, htable, true_and]
  by_cases hzero : 0 ∈ nameBytes filename
  · simp only [hzero, not_true_eq_false, if_false, if_true]
    rfl
  · simp only [hzero, not_false_eq_true, if_true, if_false, Option.bind_some, pure]
    cases log.reverse.mapM (readRow? (codeStartOf filename)) <;> rfl

/-! ## What compiling gives -/

/-- A unit that holds items on lines. -/
def Compiled (unit : Array UInt8) (filename : String) (items : List Item) (lines : List Nat) : Prop :=
  ∃ cs log, Laid cs ∧ cs.map Chunk.item = items ∧ cs.map Chunk.line = lines
    ∧ LineLog.Covers log ((cellsOf cs).map Prod.snd) ∧ Assembled unit filename (bytesOf cs) log.reverse

theorem assemble_eq (filename : String) (code : List UInt8) (lines : List LineEntry) :
    assemble filename code lines = .error unitTooLarge
      ∨ ∃ unit, assemble filename code lines = .ok unit ∧ Assembled unit filename code lines := by
  rcases hunit : assemble filename code lines with e | unit
  · refine .inl ?_
    unfold assemble at hunit
    dsimp only at hunit
    split at hunit
    · cases hunit
    · rw [← hunit]
      rfl
  · exact .inr ⟨unit, rfl, assembled_of_eq_ok hunit⟩

/-- A program that parses is compiled to its items at every width, on the lines where its marks are placed. -/
theorem compile_placed {source : String} {script : Source.Script}
    (hparse : Source.parseScript source = .ok script) (filename : String) {width : Nat}
    (hwidth : width ≤ Emitter.maxWidth) :
    compile filename source width = .error unitTooLarge
      ∨ ∃ unit, compile filename source width = .ok unit
        ∧ Compiled unit filename (Shape.script script) ((Marks.script script).placed none none) := by
  obtain ⟨cs, hcs, hitems, hline⟩ :=
    emits_script script none none (.empty width) [] [] (Emitter.empty_at width) hwidth rfl rfl
  have hat := hcs.at_
  rw [List.nil_append] at hat
  have hcode : (ofScript script width).code.data.toList = bytesOf cs := by
    rw [ofScript, hat.code, List.append_nil, map_fst_cellsOf]
  have hcompile : compile filename source width
      = assemble filename (bytesOf cs) (ofScript script width).lines.reverse := by
    rw [compile, if_neg (by omega), hparse]
    show assemble _ (ofScript script width).code.data.toList _ = _
    rw [hcode]
    rfl
  rw [hcompile]
  refine (assemble_eq _ _ _).imp id fun ⟨unit, hunit, hassembled⟩ => ⟨unit, hunit, cs, _,
    hcs.laid [] (Nat.zero_le _), hitems, hline, ?_, hassembled⟩
  have hcovers := hat.lines
  rwa [List.append_nil] at hcovers

/-- A program that parses is compiled to its items at every width, on the same lines. -/
theorem compile_eq {source : String} {script : Source.Script} (hparse : Source.parseScript source = .ok script)
    (filename : String) :
    ∃ lines, ∀ width ≤ Emitter.maxWidth, compile filename source width = .error unitTooLarge
      ∨ ∃ unit, compile filename source width = .ok unit
        ∧ Compiled unit filename (Shape.script script) lines :=
  ⟨_, fun _ => compile_placed hparse filename⟩

/-- A source that does not parse is refused with the same error at every width. -/
theorem compile_eq_error {source : String} {e : Error} (hparse : Source.parseScript source = .error e)
    (filename : String) {width : Nat} (hwidth : width ≤ Emitter.maxWidth) :
    compile filename source width = .error e := by
  rw [compile, if_neg (by omega), hparse]

/-! ## Parts -/

/-- A committed part that holds items, each at its place and on its line. -/
structure Part.Holds (p : Part) (items : List Item) (lines : List Nat) (place : Nat → Nat) : Prop where
  small : p.data.size < UInt32.size
  header : Decoded.read p.data 0 = .instr .header 1 1
  stands : Stands p.data items place
  first : place 0 = p.codeStart
  first_pos : 1 < p.codeStart
  lines_length : lines.length = items.length
  line : ∀ {i line : Nat}, lines[i]? = some line →
    some (LineTable.lineAt p.lines (place i)) = readLine? line

/-- Where the items of a compiled unit stand: from the start of its code to its table of lines. -/
theorem Compiled.stands {unit : Array UInt8} {filename : String} {items : List Item} {lines : List Nat}
    (h : Compiled unit filename items lines) :
    ∃ place header, Stands unit items place ∧ Header.read? unit = some header
      ∧ place 0 = header.codeStart ∧ place items.length = header.mapStart := by
  obtain ⟨cs, log, hlaid, rfl, -, -, hassembled⟩ := h
  have hsize := hassembled.size
  have hlength := hassembled.length
  have h64 : UInt32.size ≤ UInt64.size := by decide
  refine ⟨_, _, hlaid.stands hassembled.code (by omega) (by omega), hassembled.header, rfl, ?_⟩
  rw [List.length_map, placeIn_length]
  rfl

theorem Assembled.read_header {unit : Array UInt8} {filename : String} {bytes : List UInt8}
    {lines : List LineEntry} (h : Assembled unit filename bytes lines) :
    Decoded.read unit 0 = .instr .header 1 1 := by
  have hfirst : unit[0]? = some Op.header.toByte := by
    by_contra hne
    have hheader := h.header
    unfold Header.read? guard at hheader
    simp [hne] at hheader
  rw [Decoded.read, hfirst]
  simp only [Op.ofByte?_toByte]
  rfl

/-- Whether a compiled unit can be committed depends on its name and its lines alone, and what is
committed holds its items. -/
theorem Compiled.ofUnit? {unit : Array UInt8} {filename : String} {items : List Item} {lines : List Nat}
    (h : Compiled unit filename items lines) (start : Nat) :
    if 0 ∉ nameBytes filename ∧ ∀ l ∈ lines, (readLine? l).isSome then
      ∃ part place, Part.ofUnit? unit start = some part ∧ part.start = start ∧ part.data = unit
        ∧ part.filename = Text.Utf8.decodeLossy (nameBytes filename) ∧ part.lastRun = none
        ∧ part.Holds items lines place
    else Part.ofUnit? unit start = none := by
  obtain ⟨cs, log, hlaid, rfl, rfl, hcovers, hassembled⟩ := h
  have hsize := hassembled.size
  have hlength := hassembled.length
  have h64 : UInt32.size ≤ UInt64.size := by decide
  have hne := LaidBehind.bytes_ne_nil hlaid
  have hstands := hlaid.stands hassembled.code (by omega) (by omega)
  have hunit := hassembled.ofUnit?_eq hcovers (by rw [List.length_map, length_cellsOf]; rfl) start
  have hread : (log.reverse.mapM (readRow? (codeStartOf filename))).isSome
      ↔ ∀ l ∈ cs.map Chunk.line, (readLine? l).isSome := by
    rw [mapM_isSome]
    have hentries : (∀ e ∈ log.reverse, (readRow? (codeStartOf filename) e).isSome)
        ↔ ∀ e ∈ log, (readLine? e.line).isSome := by
      simp only [List.mem_reverse, readRow?, Option.isSome_map]
    rw [hentries, hcovers.forall_line (P := fun l => (readLine? l).isSome)]
    simp only [List.mem_map, cellsOf, List.mem_flatMap, onLine]
    constructor
    · rintro hall l ⟨c, hc, rfl⟩
      obtain ⟨b, bytes, hbytes⟩ := List.exists_cons_of_ne_nil (hne c hc)
      exact hall _ ⟨(b, c.line), ⟨c, hc, b, by rw [hbytes]; exact List.mem_cons_self, rfl⟩, rfl⟩
    · rintro hall l ⟨cell, ⟨c, hc, b, -, rfl⟩, rfl⟩
      exact hall _ ⟨c, hc, rfl⟩
  split_ifs with hgood
  · obtain ⟨hname, hlines⟩ := hgood
    obtain ⟨table, htable⟩ := Option.isSome_iff_exists.mp (hread.mpr hlines)
    rw [if_neg hname, htable, Option.map_some] at hunit
    refine ⟨_, fun i => codeStartOf filename + placeIn cs i, hunit, rfl, rfl, rfl, rfl, hsize,
      hassembled.read_header, hstands, rfl, ?_, by simp, ?_⟩
    · show 1 < headerSize + (nameBytes filename).length + 1
      have : headerSize = 13 := rfl
      omega
    · intro i line hline
      rw [List.getElem?_map] at hline
      obtain ⟨c, hc, rfl⟩ := Option.map_eq_some_iff.mp hline
      have hcell := line_placeIn hc (hne c (List.mem_of_getElem? hc))
      have hoffset : placeIn cs i < ((cellsOf cs).map Prod.snd).length :=
        (List.getElem?_eq_some_iff.mp hcell).1
      rw [← hcovers.lineAt _ hoffset] at hcell
      have hforall := mapM_eq_some.mp htable
      rw [← List.reverse_reverse table, List.forall₂_reverse_iff] at hforall
      obtain ⟨read, hread, hat⟩ := LineLog.lineAt_of_forall₂ hforall hcell
      rw [List.reverse_reverse] at hat
      rw [hread]
      exact congrArg some hat
  · rw [hunit]
    by_cases hname : 0 ∈ nameBytes filename
    · rw [if_pos hname]
    · rw [if_neg hname]
      have hnone : ¬ (log.reverse.mapM (readRow? (codeStartOf filename))).isSome := fun hsome =>
        hgood ⟨hname, hread.mp hsome⟩
      rw [Option.not_isSome_iff_eq_none.mp hnone, Option.map_none]

end ScriptEngine.Code
