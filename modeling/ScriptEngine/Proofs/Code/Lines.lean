import Mathlib.Data.List.Basic
import ScriptEngine.Code.Emitter
/-!
The table of lines while code is written.

A log is `Ascending` when the offsets of its entries rise from its end to its front, and it `Covers` a
list of lines when it has one of them for every offset. What insertions and patches do to a log is said
by what they do to the lines that it covers (`covers_noteLine`, `Covers.shift`): bytes that are put in
front of others get the line that was asked for, unless the byte behind them has that line already, and
then that of the byte before them.
-/

namespace ScriptEngine.Code.LineLog

/-- The entry with the greatest offset comes first, and no two share an offset. -/
def Ascending (log : LineLog) : Prop :=
  log.Pairwise fun a b => b.offset < a.offset

theorem ascending_cons {e : LineEntry} {log : LineLog} :
    Ascending (e :: log) ↔ (∀ f ∈ log, f.offset < e.offset) ∧ Ascending log :=
  List.pairwise_cons

theorem lineAt?_cons (e : LineEntry) (log : LineLog) (offset : Nat) :
    lineAt? (e :: log) offset = if e.offset ≤ offset then some e.line else lineAt? log offset := by
  unfold lineAt?
  by_cases h : e.offset ≤ offset
  · simp [List.find?, h]
  · simp [List.find?, h]

/-- Between two entries the line stays. -/
theorem lineAt?_eq_of_gap {log : LineLog} {a b : Nat} (hab : a ≤ b)
    (hgap : ∀ e ∈ log, e.offset ≤ b → e.offset ≤ a) : log.lineAt? b = log.lineAt? a := by
  induction log with
  | nil => rfl
  | cons e log ih =>
    rw [lineAt?_cons, lineAt?_cons, ih fun f hf => hgap f (List.mem_cons_of_mem _ hf)]
    have hiff : e.offset ≤ b ↔ e.offset ≤ a := ⟨hgap e List.mem_cons_self, fun h => by omega⟩
    simp only [hiff]

/-! ## Moving entries up -/

theorem mem_shift {log : LineLog} (h : log.Ascending) {start by_ : Nat} {f : LineEntry} :
    f ∈ log.shift start by_ ↔ (f ∈ log ∧ f.offset < start)
      ∨ ∃ e ∈ log, start ≤ e.offset ∧ f = { e with offset := e.offset + by_ } := by
  induction log with
  | nil => simp [shift]
  | cons e log ih =>
    obtain ⟨hless, hlog⟩ := ascending_cons.mp h
    unfold shift
    split
    case isTrue hstart =>
      rw [List.mem_cons, ih hlog]
      constructor
      · rintro (rfl | ⟨hf, hlt⟩ | ⟨e', he', hle, rfl⟩)
        · exact .inr ⟨e, List.mem_cons_self, hstart, rfl⟩
        · exact .inl ⟨List.mem_cons_of_mem _ hf, hlt⟩
        · exact .inr ⟨e', List.mem_cons_of_mem _ he', hle, rfl⟩
      · rintro (⟨hf, hlt⟩ | ⟨e', he', hle, rfl⟩)
        · rcases List.mem_cons.mp hf with rfl | hf
          · omega
          · exact .inr (.inl ⟨hf, hlt⟩)
        · rcases List.mem_cons.mp he' with rfl | he'
          · exact .inl rfl
          · exact .inr (.inr ⟨e', he', hle, rfl⟩)
    case isFalse hstart =>
      constructor
      · intro hf
        refine .inl ⟨hf, ?_⟩
        rcases List.mem_cons.mp hf with rfl | hf
        · omega
        · have := hless f hf
          omega
      · rintro (⟨hf, -⟩ | ⟨e', he', hle, rfl⟩)
        · exact hf
        · rcases List.mem_cons.mp he' with rfl | he'
          · omega
          · have := hless e' he'
            omega

theorem Ascending.shift {log : LineLog} (h : log.Ascending) (start by_ : Nat) :
    (log.shift start by_).Ascending := by
  induction log with
  | nil => exact h
  | cons e log ih =>
    obtain ⟨hless, hlog⟩ := ascending_cons.mp h
    unfold LineLog.shift
    split
    case isTrue hstart =>
      refine ascending_cons.mpr ⟨?_, ih hlog⟩
      intro f hf
      show f.offset < e.offset + by_
      rcases (mem_shift hlog).mp hf with ⟨hf, -⟩ | ⟨e', he', -, rfl⟩
      · have := hless f hf
        omega
      · have := hless e' he'
        show e'.offset + by_ < e.offset + by_
        omega
    case isFalse => exact h

/-- Lines move up with their entries, and the gap gets the line in front of it. -/
theorem lineAt?_shift {log : LineLog} (h : log.Ascending) {start : Nat} (hstart : 0 < start)
    (by_ offset : Nat) :
    (log.shift start by_).lineAt? offset
      = if offset < start then log.lineAt? offset
        else if offset < start + by_ then log.lineAt? (start - 1)
        else log.lineAt? (offset - by_) := by
  induction log with
  | nil => simp [shift, lineAt?]
  | cons e log ih =>
    obtain ⟨hless, hlog⟩ := ascending_cons.mp h
    unfold shift
    split
    case isTrue hle =>
      rw [lineAt?_cons, ih hlog]
      simp only [lineAt?_cons]
      split_ifs <;> first | rfl | omega
    case isFalse hle =>
      simp only [lineAt?_cons]
      split_ifs <;> first | rfl | omega

/-! ## Putting an entry in its place -/

theorem mem_put {log : LineLog} (h : log.Ascending) {entry f : LineEntry} :
    f ∈ log.put entry ↔ f = entry ∨ (f ∈ log ∧ f.offset ≠ entry.offset) := by
  induction log with
  | nil => simp [put]
  | cons e log ih =>
    obtain ⟨hless, hlog⟩ := ascending_cons.mp h
    have hother : ∀ f ∈ log, e.offset ≤ entry.offset → f.offset ≠ entry.offset := by
      intro f hf hle
      have := hless f hf
      omega
    unfold put
    split_ifs with hlt heq
    · rw [List.mem_cons, ih hlog, List.mem_cons]
      constructor
      · rintro (rfl | rfl | ⟨hf, hne⟩)
        · exact .inr ⟨.inl rfl, by omega⟩
        · exact .inl rfl
        · exact .inr ⟨.inr hf, hne⟩
      · rintro (rfl | ⟨rfl | hf, hne⟩)
        · exact .inr (.inl rfl)
        · exact .inl rfl
        · exact .inr (.inr ⟨hf, hne⟩)
    · rw [List.mem_cons, List.mem_cons]
      constructor
      · rintro (rfl | hf)
        · exact .inl rfl
        · exact .inr ⟨.inr hf, hother f hf (by omega)⟩
      · rintro (rfl | ⟨rfl | hf, hne⟩)
        · exact .inl rfl
        · exact absurd heq hne
        · exact .inr hf
    · rw [List.mem_cons]
      constructor
      · rintro (rfl | hf)
        · exact .inl rfl
        · refine .inr ⟨hf, ?_⟩
          rcases List.mem_cons.mp hf with rfl | hf
          · exact heq
          · exact hother f hf (by omega)
      · rintro (rfl | ⟨hf, -⟩)
        · exact .inl rfl
        · exact .inr hf

theorem Ascending.put {log : LineLog} (h : log.Ascending) (entry : LineEntry) :
    (log.put entry).Ascending := by
  induction log with
  | nil => exact List.pairwise_singleton _ _
  | cons e log ih =>
    obtain ⟨hless, hlog⟩ := ascending_cons.mp h
    unfold LineLog.put
    split_ifs with hlt heq
    · refine ascending_cons.mpr ⟨?_, ih hlog⟩
      intro f hf
      rcases (mem_put hlog).mp hf with rfl | ⟨hf, -⟩
      · exact hlt
      · exact hless f hf
    · refine ascending_cons.mpr ⟨?_, hlog⟩
      intro f hf
      have := hless f hf
      omega
    · refine ascending_cons.mpr ⟨?_, h⟩
      intro f hf
      rcases List.mem_cons.mp hf with rfl | hf
      · omega
      · have := hless f hf
        omega

/-- An entry is good up to the next one. -/
theorem lineAt?_put {log : LineLog} (h : log.Ascending) (entry : LineEntry) (offset : Nat) :
    (log.put entry).lineAt? offset
      = if entry.offset ≤ offset ∧ ∀ e ∈ log, e.offset ≤ offset → e.offset ≤ entry.offset then some entry.line
        else log.lineAt? offset := by
  induction log with
  | nil => simp [put, lineAt?_cons]
  | cons e log ih =>
    obtain ⟨hless, hlog⟩ := ascending_cons.mp h
    simp only [List.forall_mem_cons]
    have hother : e.offset ≤ entry.offset → ∀ f ∈ log, f.offset ≤ offset → f.offset ≤ entry.offset := by
      intro hle f hf _
      have := hless f hf
      omega
    by_cases hlt : entry.offset < e.offset
    · rw [put, if_pos hlt, lineAt?_cons, lineAt?_cons, ih hlog]
      by_cases hle : e.offset ≤ offset
      · rw [if_pos hle, if_pos hle, if_neg]
        rintro ⟨-, hall, -⟩
        have := hall hle
        omega
      · rw [if_neg hle, if_neg hle]
        simp only [hle, false_implies, true_and]
    · have hiff : (entry.offset ≤ offset ∧ (e.offset ≤ offset → e.offset ≤ entry.offset)
          ∧ ∀ f ∈ log, f.offset ≤ offset → f.offset ≤ entry.offset) ↔ entry.offset ≤ offset :=
        ⟨And.left, fun hle => ⟨hle, fun _ => by omega, hother (by omega)⟩⟩
      rw [put, if_neg hlt]
      simp only [hiff]
      by_cases heq : e.offset = entry.offset
      · rw [if_pos heq, lineAt?_cons, lineAt?_cons, heq]
        by_cases hle : entry.offset ≤ offset
        · rw [if_pos hle, if_pos hle]
        · rw [if_neg hle, if_neg hle, if_neg hle]
      · rw [if_neg heq, lineAt?_cons]

/-! ## Lines byte by byte -/

/-- The log has these lines for the bytes in order. -/
structure Covers (log : LineLog) (lines : List Nat) : Prop where
  ascending : log.Ascending
  inside : ∀ e ∈ log, e.offset < lines.length
  lineAt : ∀ offset < lines.length, log.lineAt? offset = lines[offset]?

/-- The line that bytes get that are put between others. -/
def placedLine (before behind : Option Nat) (line : Nat) : Nat :=
  if behind = some line then before.getD line else line

theorem covers_nil : Covers [] [] :=
  ⟨List.Pairwise.nil, by simp, by simp⟩

/-- Behind the last byte the line is that of the last byte. -/
theorem Covers.lineAt?_length {log : LineLog} {lines : List Nat} (h : log.Covers lines) :
    log.lineAt? lines.length = lines.getLast? := by
  by_cases hlines : lines = []
  · subst hlines
    have hlog : log = [] := List.eq_nil_iff_forall_not_mem.mpr fun e he => by
      have := h.inside e he
      simp at this
    subst hlog
    rfl
  · have hpos : 0 < lines.length := List.length_pos_iff.mpr hlines
    rw [lineAt?_eq_of_gap (a := lines.length - 1) (by omega) fun e he _ => by
      have := h.inside e he
      omega]
    rw [h.lineAt _ (by omega), List.getLast?_eq_getElem?]

/-- A patch that grows moves the lines behind it up, and its bytes have the line in front of them. -/
theorem Covers.shift {log : LineLog} {xs ys : List Nat} {line : Nat} (h : log.Covers (xs ++ ys))
    (hlast : xs.getLast? = some line) (by_ : Nat) :
    (log.shift xs.length by_).Covers (xs ++ List.replicate by_ line ++ ys) := by
  have hpos : 0 < xs.length := List.length_pos_iff.mpr (by rintro rfl; cases hlast)
  have hbefore : log.lineAt? (xs.length - 1) = some line := by
    rw [h.lineAt _ (by rw [List.length_append]; omega), List.getElem?_append_left (by omega),
      ← List.getLast?_eq_getElem?, hlast]
  refine ⟨h.ascending.shift _ _, ?_, ?_⟩
  · intro f hf
    simp only [List.length_append, List.length_replicate]
    rcases (mem_shift h.ascending).mp hf with ⟨-, hlt⟩ | ⟨e, he, -, rfl⟩
    · omega
    · have := h.inside e he
      rw [List.length_append] at this
      show e.offset + by_ < _
      omega
  · intro offset hoffset
    simp only [List.length_append, List.length_replicate] at hoffset
    rw [lineAt?_shift h.ascending hpos]
    split_ifs with hlt hgap
    · rw [h.lineAt _ (by rw [List.length_append]; omega), List.append_assoc,
        List.getElem?_append_left hlt, List.getElem?_append_left hlt]
    · rw [hbefore, List.append_assoc, List.getElem?_append_right (by omega),
        List.getElem?_append_left (by rw [List.length_replicate]; omega),
        List.getElem?_replicate_of_lt (by omega)]
    · rw [h.lineAt _ (by rw [List.length_append]; omega), List.getElem?_append_right (by omega),
        List.getElem?_append_right (by simp; omega)]
      congr 1
      simp
      omega

/-- Bytes behind the last one have the line that was asked for. -/
theorem Covers.put_length {log : LineLog} {xs : List Nat} (h : log.Covers xs) (line : Nat) {n : Nat}
    (hn : 0 < n) : (log.put ⟨xs.length, line⟩).Covers (xs ++ List.replicate n line) := by
  refine ⟨h.ascending.put _, ?_, ?_⟩
  · intro f hf
    rw [List.length_append, List.length_replicate]
    rcases (mem_put h.ascending).mp hf with rfl | ⟨hf, -⟩
    · show xs.length < _
      omega
    · have := h.inside f hf
      omega
  · intro offset hoffset
    rw [List.length_append, List.length_replicate] at hoffset
    rw [lineAt?_put h.ascending]
    split_ifs with hcond
    · have hle : xs.length ≤ offset := hcond.1
      rw [List.getElem?_append_right hle, List.getElem?_replicate_of_lt (by omega)]
    · have hlt : offset < xs.length := by
        by_contra hge
        refine hcond ⟨by show xs.length ≤ offset; omega, fun e he _ => ?_⟩
        have := h.inside e he
        show e.offset ≤ xs.length
        omega
      rw [h.lineAt _ hlt, List.getElem?_append_left hlt]

theorem Covers.extend {log : LineLog} {xs : List Nat} (h : log.Covers xs) {line : Nat}
    (hlast : xs.getLast? = some line) (n : Nat) : log.Covers (xs ++ List.replicate n line) := by
  refine ⟨h.ascending, ?_, ?_⟩
  · intro e he
    have := h.inside e he
    rw [List.length_append]
    omega
  · intro offset hoffset
    rw [List.length_append, List.length_replicate] at hoffset
    by_cases hlt : offset < xs.length
    · rw [h.lineAt _ hlt, List.getElem?_append_left hlt]
    · rw [lineAt?_eq_of_gap (a := xs.length) (by omega) fun e he _ => by
          have := h.inside e he
          omega,
        h.lineAt?_length, hlast, List.getElem?_append_right (by omega),
        List.getElem?_replicate_of_lt (by omega)]

/-- An entry between others is good for `n` bytes when the line behind them gets one of its own. -/
theorem Covers.put_putNew {log : LineLog} {xs ys : List Nat} {n old behind : Nat}
    (h : log.Covers (xs ++ List.replicate n old ++ ys)) (hn : 0 < n) (hbehind : ys.head? = some behind)
    (hgap : ∀ e ∈ log, e.offset < xs.length ∨ xs.length + n ≤ e.offset) (line : Nat) :
    ((log.put ⟨xs.length, line⟩).putNew ⟨xs.length + n, behind⟩).Covers
      (xs ++ List.replicate n line ++ ys) := by
  have hys : 0 < ys.length := List.length_pos_iff.mpr (by rintro rfl; cases hbehind)
  have hput := h.ascending.put ⟨xs.length, line⟩
  have hinside : ∀ e ∈ log.put ⟨xs.length, line⟩, e.offset < xs.length + n + ys.length := by
    intro e he
    rcases (mem_put h.ascending).mp he with rfl | ⟨he, -⟩
    · show xs.length < _
      omega
    · have := h.inside e he
      simpa [Nat.add_assoc] using this
  -- What the first entry does, in terms of the lines from before it.
  have hfirst : ∀ offset < xs.length + n + ys.length,
      (log.put ⟨xs.length, line⟩).lineAt? offset
        = if xs.length ≤ offset ∧ ∀ e ∈ log, e.offset ≤ offset → e.offset < xs.length then some line
          else (xs ++ List.replicate n old ++ ys)[offset]? := by
    intro offset hoffset
    rw [lineAt?_put h.ascending, h.lineAt _ (by simpa [Nat.add_assoc] using hoffset)]
    refine if_congr (and_congr_right fun _ => forall₂_congr fun e he => ?_) rfl rfl
    have := hgap e he
    show (_ → e.offset ≤ xs.length) ↔ _
    constructor
    · intro hle hoff
      have := hle hoff
      omega
    · intro hlt hoff
      have := hlt hoff
      omega
  have hlines : ∀ offset, xs.length + n ≤ offset → ∀ l : Nat,
      (xs ++ List.replicate n l ++ ys)[offset]? = ys[offset - (xs.length + n)]? := by
    intro offset hle l
    rw [List.getElem?_append_right (by simpa using hle)]
    simp
  have hlow : ∀ offset < xs.length + n, (log.put ⟨xs.length, line⟩).lineAt? offset
      = (xs ++ List.replicate n line ++ ys)[offset]? := by
    intro offset hlt
    rw [hfirst offset (by omega), List.append_assoc, List.append_assoc]
    split_ifs with hcond
    · rw [List.getElem?_append_right hcond.1, List.getElem?_append_left (by simp; omega),
        List.getElem?_replicate_of_lt (by omega)]
    · have hltxs : offset < xs.length := by
        by_contra hge
        refine hcond ⟨by omega, fun e he hle => ?_⟩
        have := hgap e he
        omega
      rw [List.getElem?_append_left hltxs, List.getElem?_append_left hltxs]
  unfold putNew
  split_ifs with hany
  · -- The byte behind already starts an entry of its own.
    refine ⟨hput, by simpa [Nat.add_assoc] using hinside, fun offset hoffset => ?_⟩
    simp only [List.length_append, List.length_replicate] at hoffset
    by_cases hlt : offset < xs.length + n
    · exact hlow offset hlt
    · obtain ⟨e, he, heq⟩ := List.any_eq_true.mp hany
      have heq : e.offset = xs.length + n := by simpa using heq
      have helog : e ∈ log := by
        rcases (mem_put h.ascending).mp he with rfl | ⟨he, -⟩
        · have : xs.length = xs.length + n := heq
          omega
        · exact he
      rw [hfirst offset hoffset, if_neg, hlines _ (by omega), hlines _ (by omega)]
      rintro ⟨-, hall⟩
      have := hall e helog (by omega)
      omega
  · have hfree : ∀ e ∈ log, e.offset ≠ xs.length + n := by
      intro e he heq
      refine hany (List.any_eq_true.mpr ⟨e, (mem_put h.ascending).mpr (.inr ⟨he, ?_⟩), by simpa using heq⟩)
      show e.offset ≠ xs.length
      omega
    refine ⟨hput.put _, ?_, fun offset hoffset => ?_⟩
    · intro e he
      rcases (mem_put hput).mp he with rfl | ⟨he, -⟩
      · simp
        omega
      · simpa [Nat.add_assoc] using hinside e he
    · simp only [List.length_append, List.length_replicate] at hoffset
      rw [lineAt?_put hput]
      by_cases hlt : offset < xs.length + n
      · rw [if_neg (by rintro ⟨hle, -⟩; have : xs.length + n ≤ offset := hle; omega), hlow offset hlt]
      · split_ifs with hcond
        · -- No entry starts between the byte behind and this one, so both had one line before.
          have hsame : log.lineAt? offset = log.lineAt? (xs.length + n) :=
            lineAt?_eq_of_gap (by omega) fun e he hle => by
              by_cases hlow : e.offset = xs.length
              · omega
              · exact hcond.2 e ((mem_put h.ascending).mpr (.inr ⟨he, hlow⟩)) hle
          rw [h.lineAt _ (by simpa [Nat.add_assoc] using hoffset),
            h.lineAt _ (by simp; omega), hlines _ (by omega), hlines _ (Nat.le_refl _), Nat.sub_self,
            ← List.head?_eq_getElem?, hbehind] at hsame
          rw [hlines _ (by omega), hsame]
        · have hsome : ∃ e ∈ log, xs.length + n < e.offset ∧ e.offset ≤ offset := by
            by_contra hnone
            refine hcond ⟨by show xs.length + n ≤ offset; omega, fun e he hle => ?_⟩
            show e.offset ≤ xs.length + n
            rcases (mem_put h.ascending).mp he with rfl | ⟨he, -⟩
            · show xs.length ≤ _
              omega
            · by_contra hgt
              exact hnone ⟨e, he, by omega, hle⟩
          obtain ⟨e, he, hgt, hle⟩ := hsome
          rw [hfirst offset hoffset, if_neg, hlines _ (by omega), hlines _ (by omega)]
          rintro ⟨-, hall⟩
          have := hall e he hle
          omega

end ScriptEngine.Code.LineLog

namespace ScriptEngine.Code.Emitter

open LineLog

/-- What a write notes: its bytes have the line of their place, all others keep theirs. -/
theorem covers_noteLine {e : Emitter} {xs ys : List Nat} (h : e.lines.Covers (xs ++ ys))
    (hcursor : e.cursor = xs.length) (hsize : e.code.size = xs.length + ys.length)
    (hfront : ys ≠ [] → xs ≠ []) (line : Nat) {n : Nat} (hn : 0 < n) :
    (e.noteLine line n).Covers
      (xs ++ List.replicate n (placedLine xs.getLast? ys.head? line) ++ ys) := by
  unfold noteLine
  rw [hcursor]
  rcases ys with _ | ⟨behind, ys⟩
  · -- At the end nothing moves.
    have hend : ¬ xs.length < e.code.size := by
      rw [hsize]
      simp
    have hplaced : placedLine xs.getLast? ([] : List Nat).head? line = line := rfl
    rw [List.append_nil] at h ⊢
    rw [hplaced]
    simp only [hend, if_false, h.lineAt?_length]
    split
    case isTrue hcovered => exact h.extend hcovered n
    case isFalse => split <;> exact h.put_length line hn
  · have hinserting : xs.length < e.code.size := by
      rw [hsize, List.length_cons]
      omega
    have hbehind : e.lines.lineAt? xs.length = some behind := by
      rw [h.lineAt _ (by simp), List.getElem?_append_right (Nat.le_refl _)]
      simp
    obtain ⟨before, hbefore⟩ : ∃ before, xs.getLast? = some before :=
      Option.isSome_iff_exists.mp (by simpa [List.getLast?_isSome] using hfront (by simp))
    have hshift := h.shift hbefore n
    simp only [hinserting, if_true, hbehind, placedLine, List.head?_cons, hbefore, Option.getD_some]
    split_ifs with hcovered
    · exact hshift
    · refine hshift.put_putNew hn rfl (fun f hf => ?_) line
      rcases (mem_shift h.ascending).mp hf with ⟨-, hlt⟩ | ⟨f, -, hle, rfl⟩
      · exact .inl hlt
      · exact .inr (by show _ ≤ f.offset + n; omega)

end ScriptEngine.Code.Emitter
