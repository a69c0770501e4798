import Mathlib.Data.List.Sort
import ScriptEngine.Heap.Strings
import ScriptEngine.Proofs.Varint
/-!
Compaction of a row of records.

The buffer is a row of blocks that say themselves how long they are (`IsFramed`), and the offsets asked for are
those of some of them. Sliding looks at these from left to right and copies each down to where the one before it
ends (`slide_blocks`). `slideMoves` lists the copies it makes, which are those that the blocks asked for need
(`movesTo`): a block only ever moves to the left, so it is copied before anything is written over it. The main
statement is about records, whose lengths may be written in any width.
-/

namespace ScriptEngine.StringHeap

/-! ## Blocks -/

/-- A block starts with a number that, whatever follows, is read as how many bytes there are behind it but one. -/
def IsFramed (block : List UInt8) : Prop :=
  ∃ length used, used + length + 1 = block.length ∧
    ∀ rest, Varint.decode (block ++ rest) = some (length, used)

theorem IsFramed.length_pos {block : List UInt8} (h : IsFramed block) : 0 < block.length := by
  obtain ⟨length, used, hlength, -⟩ := h
  omega

/-- The number is read at the place where the block stands. -/
theorem IsFramed.decodeAt {block before behind : List UInt8} (h : IsFramed block) {data : ByteArray}
    (hdata : data.data.toList = before ++ block ++ behind) :
    ∃ length used, used + length + 1 = block.length ∧
      Varint.decodeAt (Buffer.byte? data) before.length = some (length, used) := by
  obtain ⟨length, used, hlength, hdecode⟩ := h
  have hbyte : Buffer.byte? data = fun i => data.data.toList[i]? := funext (Buffer.byte?_eq data)
  refine ⟨length, used, hlength, ?_⟩
  rw [hbyte, Varint.decodeAt_eq_decode, hdata, List.append_assoc, List.drop_left, hdecode]

section Places

variable {α : Type} (bytes : α → List UInt8)

/-- Blocks with the offsets at which they start, one behind the other from `start` on. -/
def placesFrom (start : Nat) : List α → List (Nat × α)
  | [] => []
  | a :: rest => (start, a) :: placesFrom (start + (bytes a).length) rest

variable {bytes} {start offset : Nat} {a : α} {blocks : List α}

theorem mem_placesFrom : (offset, a) ∈ placesFrom bytes start blocks ↔
    ∃ before behind, blocks = before ++ a :: behind ∧ offset = start + (before.flatMap bytes).length := by
  induction blocks generalizing start with
  | nil => simp [placesFrom]
  | cons first rest ih =>
    rw [placesFrom, List.mem_cons, ih]
    constructor
    · rintro (h | ⟨before, behind, rfl, rfl⟩)
      · cases h
        exact ⟨[], rest, rfl, rfl⟩
      · refine ⟨first :: before, behind, rfl, ?_⟩
        simp only [List.flatMap_cons, List.length_append]
        omega
    · rintro ⟨_ | ⟨head, before⟩, behind, heq, rfl⟩
      · cases heq
        exact .inl rfl
      · cases heq
        refine .inr ⟨before, behind, rfl, ?_⟩
        simp only [List.flatMap_cons, List.length_append]
        omega

theorem map_snd_placesFrom (bytes : α → List UInt8) (start : Nat) (blocks : List α) :
    (placesFrom bytes start blocks).map Prod.snd = blocks := by
  induction blocks generalizing start with
  | nil => rfl
  | cons a rest ih => rw [placesFrom, List.map_cons, ih]

theorem le_of_mem_placesFrom (h : (offset, a) ∈ placesFrom bytes start blocks) : start ≤ offset := by
  obtain ⟨before, behind, -, rfl⟩ := mem_placesFrom.1 h
  omega

/-- A block ends within the row. -/
theorem le_of_mem_placesFrom_end (h : (offset, a) ∈ placesFrom bytes start blocks) :
    offset + (bytes a).length ≤ start + (blocks.flatMap bytes).length := by
  obtain ⟨before, behind, rfl, rfl⟩ := mem_placesFrom.1 h
  simp only [List.flatMap_append, List.flatMap_cons, List.length_append]
  omega

/-- A block ends where the next one starts, or before. -/
theorem placesFrom_pairwise (start : Nat) (blocks : List α) :
    (placesFrom bytes start blocks).Pairwise fun e e' => e.1 + (bytes e.2).length ≤ e'.1 := by
  induction blocks generalizing start with
  | nil => exact List.Pairwise.nil
  | cons a rest ih => exact List.Pairwise.cons (fun e he => le_of_mem_placesFrom he) (ih _)

/-- The blocks at some offsets, in order. -/
def listedAt (bytes : α → List UInt8) (blocks : List α) (live : List Nat) : List (Nat × α) :=
  (placesFrom bytes 0 blocks).filter fun e => live.contains e.1

theorem mem_listedAt {live : List Nat} :
    (offset, a) ∈ listedAt bytes blocks live ↔ (offset, a) ∈ placesFrom bytes 0 blocks ∧ offset ∈ live := by
  simp [listedAt]

/-! ## Moves -/

/-- A number of bytes is copied from one place to another. -/
structure Move where
  source : Nat
  dest : Nat
  count : Nat
  deriving DecidableEq

/-- The buffer behind a move. -/
def moved (data : ByteArray) (m : Move) : ByteArray :=
  Buffer.move data m.source m.dest m.count

/-- The moves that sliding makes, in order. -/
def slideMoves (data : ByteArray) (dest : Nat) : List Nat → List Move
  | [] => []
  | offset :: rest =>
    match Varint.decodeAt (Buffer.byte? data) offset with
    | none => slideMoves data dest rest
    | some (length, used) =>
      let size := used + length + 1
      if offset = dest then slideMoves data (dest + size) rest
      else ⟨offset, dest, size⟩ :: slideMoves (moved data ⟨offset, dest, size⟩) (dest + size) rest

/-- Sliding makes its moves and nothing else of the buffer, and notes where they lead. -/
theorem slide_eq_moves (data : ByteArray) (dest : Nat) (notes : List (Nat × Nat)) (offsets : List Nat) :
    (slide data dest notes offsets).1 = (slideMoves data dest offsets).foldl moved data ∧
      (slide data dest notes offsets).2.1
        = ((slideMoves data dest offsets).map fun m => (m.source, m.dest)).reverse ++ notes := by
  induction offsets generalizing data dest notes with
  | nil => exact ⟨rfl, rfl⟩
  | cons offset rest ih =>
    cases hdecode : Varint.decodeAt (Buffer.byte? data) offset with
    | none =>
      simp only [slide, slideMoves, hdecode]
      exact ih data dest notes
    | some found =>
      obtain ⟨length, used⟩ := found
      simp only [slide, slideMoves, hdecode]
      by_cases hstays : offset = dest
      · simp only [if_pos hstays]
        exact ih data _ notes
      · have hmove : Buffer.move data offset dest (used + length + 1)
            = moved data ⟨offset, dest, used + length + 1⟩ := rfl
        simp only [if_neg hstays, hmove]
        obtain ⟨hdata, hnotes⟩ := ih (moved data ⟨offset, dest, used + length + 1⟩) (dest + (used + length + 1))
          ((offset, dest) :: notes)
        rw [List.foldl_cons, hdata, hnotes]
        simp

/-- The moves of blocks that are put down from `dest` on. -/
def movesTo (bytes : α → List UInt8) (dest : Nat) : List (Nat × α) → List Move
  | [] => []
  | (offset, a) :: rest =>
    let moves := movesTo bytes (dest + (bytes a).length) rest
    if offset = dest then moves else ⟨offset, dest, (bytes a).length⟩ :: moves

variable {dest : Nat} {m : Move} {listed : List (Nat × α)}

/-- What moves is one of the blocks, and goes where those before it end. -/
theorem mem_movesTo : m ∈ movesTo bytes dest listed ↔
    m.source ≠ m.dest ∧ ∃ before a behind, listed = before ++ (m.source, a) :: behind ∧
      m.dest = dest + (before.flatMap fun e => bytes e.2).length ∧ m.count = (bytes a).length := by
  induction listed generalizing dest with
  | nil => simp [movesTo]
  | cons e rest ih =>
    obtain ⟨offset, a⟩ := e
    have hcons : m ∈ movesTo bytes dest ((offset, a) :: rest) ↔
        (offset ≠ dest ∧ m = ⟨offset, dest, (bytes a).length⟩) ∨
          m ∈ movesTo bytes (dest + (bytes a).length) rest := by
      simp only [movesTo]
      split
      · rename_i heq
        simp [heq]
      · rename_i hne
        simp [hne]
    rw [hcons, ih]
    constructor
    · rintro (⟨hne, rfl⟩ | ⟨hne, before, b, behind, rfl, hdest, hcount⟩)
      · exact ⟨hne, [], a, rest, rfl, rfl, rfl⟩
      · refine ⟨hne, (offset, a) :: before, b, behind, rfl, ?_, hcount⟩
        simp only [List.flatMap_cons, List.length_append]
        omega
    · rintro ⟨hne, _ | ⟨head, before⟩, b, behind, heq, hdest, hcount⟩
      · cases heq
        obtain ⟨source, dest', count⟩ := m
        obtain rfl : dest' = dest := by simpa using hdest
        obtain rfl : count = _ := hcount
        exact .inl ⟨hne, rfl⟩
      · cases heq
        refine .inr ⟨hne, before, b, behind, rfl, ?_, hcount⟩
        simp only [List.flatMap_cons, List.length_append] at hdest
        omega

theorem movesTo_pairwise (hrising : listed.Pairwise fun e e' => e.1 < e'.1) :
    (movesTo bytes dest listed).Pairwise fun m m' => m.source < m'.source := by
  induction listed generalizing dest with
  | nil => exact List.Pairwise.nil
  | cons e rest ih =>
    obtain ⟨hlt, hrest⟩ := List.pairwise_cons.1 hrising
    obtain ⟨offset, a⟩ := e
    simp only [movesTo]
    split
    · exact ih hrest
    · refine List.Pairwise.cons (fun m hm => ?_) (ih hrest)
      obtain ⟨-, before, b, behind, rfl, -⟩ := mem_movesTo.1 hm
      exact hlt (m.source, b) (by simp)

/-- With all blocks kept, none moves. -/
theorem movesTo_placesFrom (start : Nat) (blocks : List α) :
    movesTo bytes start (placesFrom bytes start blocks) = [] := by
  induction blocks generalizing start with
  | nil => rfl
  | cons a rest ih => simp only [placesFrom, movesTo, ih, if_true]

/-- A block never moves to the right: what stays in front of it was in front of it. -/
theorem length_before_le (keep : Nat → Bool) {before behind : List (Nat × α)}
    (hkept : (placesFrom bytes start blocks).filter (fun e => keep e.1) = before ++ (offset, a) :: behind) :
    start + (before.flatMap fun e => bytes e.2).length ≤ offset := by
  induction blocks generalizing start before with
  | nil => simp [placesFrom] at hkept
  | cons b rest ih =>
    rw [placesFrom, List.filter_cons] at hkept
    split at hkept
    · rcases before with _ | ⟨e, before⟩
      · simp only [List.nil_append, List.cons.injEq, Prod.mk.injEq] at hkept
        simp [hkept.1.1]
      · simp only [List.cons_append, List.cons.injEq] at hkept
        obtain ⟨rfl, hkept⟩ := hkept
        have := ih hkept
        simp only [List.flatMap_cons, List.length_append]
        omega
    · have := ih hkept
      omega

/-! ## Sliding -/

theorem toList_moved {data : ByteArray} (hsource : m.source + m.count ≤ data.size) :
    (moved data m).data.toList
      = data.data.toList.take m.dest ++ (data.data.toList.drop m.source).take m.count
        ++ data.data.toList.drop (m.dest + m.count) :=
  Buffer.toList_move data m.source m.dest m.count hsource

/-- A block that is moved over a gap leaves a gap of the same size behind it. -/
theorem toList_moved_block {data : ByteArray} {before gap block behind : List UInt8}
    (hdata : data.data.toList = before ++ gap ++ block ++ behind) :
    (moved data ⟨before.length + gap.length, before.length, block.length⟩).data.toList
      = (before ++ block) ++ (gap ++ block).drop block.length ++ behind := by
  have hsize : data.size = before.length + gap.length + block.length + behind.length := by
    show data.data.toList.length = _
    rw [hdata]
    simp only [List.length_append]
  have hcut : (before ++ gap).length = before.length + gap.length := List.length_append
  rw [toList_moved (by dsimp only; omega), hdata]
  dsimp only
  rw [List.append_assoc (before ++ gap), ← hcut, List.drop_left, List.take_left, List.append_assoc before gap,
    List.take_left, ← List.append_assoc gap, List.drop_append, List.drop_of_length_le (by omega), List.nil_append,
    Nat.add_sub_cancel_left, List.drop_append_of_le_length (by simp)]
  simp

/-- Sliding goes over the blocks from left to right: in front of `gap` is what has been put down, behind it what has
not been looked at. -/
theorem slide_blocks (keep : Nat → Bool) {data : ByteArray} {before gap : List UInt8} (notes : List (Nat × Nat))
    (hdata : data.data.toList = before ++ gap ++ blocks.flatMap bytes) (hframed : ∀ a ∈ blocks, IsFramed (bytes a)) :
    let kept := (placesFrom bytes (before.length + gap.length) blocks).filter fun e => keep e.1
    let whole := before ++ kept.flatMap fun e => bytes e.2
    slideMoves data before.length (kept.map Prod.fst) = movesTo bytes before.length kept ∧
      (slide data before.length notes (kept.map Prod.fst)).2.2 = whole.length ∧
      (slide data before.length notes (kept.map Prod.fst)).1.data.toList.take whole.length = whole := by
  induction blocks generalizing data before gap notes with
  | nil =>
    refine ⟨rfl, ?_, ?_⟩
    · simp [placesFrom, slide]
    · simp only [placesFrom, List.filter_nil, List.flatMap_nil, List.append_nil, List.map_nil, slide] at hdata ⊢
      rw [hdata, List.take_left]
  | cons a rest ih =>
    have hrest : ∀ a ∈ rest, IsFramed (bytes a) := fun a ha => hframed a (List.mem_cons_of_mem _ ha)
    have hgap : before.length + gap.length + (bytes a).length = before.length + (gap ++ bytes a).length := by
      rw [List.length_append]
      omega
    rw [placesFrom, List.filter_cons]
    by_cases hkeep : keep (before.length + gap.length) = true
    case neg =>
      have hnext : data.data.toList = before ++ (gap ++ bytes a) ++ rest.flatMap bytes := by
        rw [hdata]
        simp
      rw [if_neg hkeep, hgap]
      exact ih notes hnext hrest
    case pos =>
      have hblock : data.data.toList = (before ++ gap) ++ bytes a ++ rest.flatMap bytes := by
        rw [hdata]
        simp
      obtain ⟨length, used, hlength, hdecode⟩ := (hframed a List.mem_cons_self).decodeAt hblock
      rw [List.length_append] at hdecode
      have hput : before.length + (bytes a).length = (before ++ bytes a).length := by
        rw [List.length_append]
      rw [if_pos hkeep]
      simp only [List.map_cons, slide, slideMoves, hdecode, hlength, movesTo, List.flatMap_cons]
      by_cases hempty : gap = []
      · -- The block stays where it is.
        subst hempty
        have hnext : data.data.toList = (before ++ bytes a) ++ [] ++ rest.flatMap bytes := by
          rw [hdata]
          simp
        obtain ⟨hmoves, hstop, htake⟩ := ih notes hnext hrest
        simp only [List.length_nil, Nat.add_zero, if_true] at hmoves hstop htake ⊢
        rw [hput, ← List.append_assoc before]
        exact ⟨hmoves, hstop, htake⟩
      · have hne : before.length + gap.length ≠ before.length := by
          have := List.length_pos_iff.2 hempty
          omega
        have hnext := toList_moved_block hblock
        have hstart : (before ++ bytes a).length + ((gap ++ bytes a).drop (bytes a).length).length
            = before.length + gap.length + (bytes a).length := by
          simp only [List.length_append, List.length_drop]
          omega
        obtain ⟨hmoves, hstop, htake⟩ := ih ((before.length + gap.length, before.length) :: notes) hnext hrest
        rw [hstart] at hmoves hstop htake
        have hmove : Buffer.move data (before.length + gap.length) before.length (bytes a).length
            = moved data ⟨before.length + gap.length, before.length, (bytes a).length⟩ := rfl
        simp only [if_neg hne, hmove]
        rw [hput, ← List.append_assoc before]
        exact ⟨by rw [hmoves], hstop, htake⟩

theorem size_moved {data : ByteArray} (hsource : m.source + m.count ≤ data.size)
    (hdest : m.dest + m.count ≤ data.size) :
    (moved data m).size = data.size := by
  have hsize : data.data.toList.length = data.size := rfl
  show (moved data m).data.toList.length = _
  rw [toList_moved hsource]
  simp only [List.length_append, List.length_take, List.length_drop, hsize]
  omega

/-- Moves leave what lies behind the places that they lead to. -/
theorem foldl_moved (moves : List Move) {data : ByteArray} {place : Nat} (hplace : place ≤ data.size)
    (hmoves : ∀ m ∈ moves, m.source + m.count ≤ data.size ∧ m.dest + m.count ≤ place) :
    (moves.foldl moved data).size = data.size ∧
      (moves.foldl moved data).data.toList.drop place = data.data.toList.drop place := by
  induction moves generalizing data with
  | nil => exact ⟨rfl, rfl⟩
  | cons m rest ih =>
    obtain ⟨hsource, hdest⟩ := hmoves m List.mem_cons_self
    have hsize := size_moved hsource (Nat.le_trans hdest hplace)
    have hrest : ∀ m' ∈ rest, m'.source + m'.count ≤ (moved data m).size ∧ m'.dest + m'.count ≤ place := by
      intro m' hm'
      rw [hsize]
      exact hmoves m' (List.mem_cons_of_mem _ hm')
    obtain ⟨hsize', hdrop⟩ := ih (by rwa [hsize]) hrest
    have hfront : (data.data.toList.take m.dest ++ (data.data.toList.drop m.source).take m.count).length
        = m.dest + m.count := by
      have hlength : data.data.toList.length = data.size := rfl
      simp only [List.length_append, List.length_take, List.length_drop, hlength]
      omega
    rw [List.foldl_cons]
    refine ⟨hsize'.trans hsize, hdrop.trans ?_⟩
    rw [toList_moved hsource, List.drop_append, List.drop_of_length_le (by omega), List.nil_append, List.drop_drop,
      hfront, Nat.add_sub_cancel' hdest]

end Places

/-! ## Heaps -/

section Heaps

variable {α : Type} {bytes : α → List UInt8} {h : StringHeap} {blocks : List α} {live : List Nat}

theorem ascending_eq_listedAt (hdata : h.data.data.toList = blocks.flatMap bytes)
    (hframed : ∀ a ∈ blocks, IsFramed (bytes a)) (hlive : ∀ offset ∈ live, ∃ a, (offset, a) ∈ placesFrom bytes 0 blocks) :
    ascending h.data.size live = (listedAt bytes blocks live).map Prod.fst := by
  have hsize : h.data.size = (blocks.flatMap bytes).length := by
    rw [← hdata]
    rfl
  have hpos : ∀ e ∈ placesFrom bytes 0 blocks, 0 < (bytes e.2).length := fun e he => by
    obtain ⟨before, behind, hblocks, -⟩ := mem_placesFrom.1 (show (e.1, e.2) ∈ _ from he)
    exact (hframed e.2 (by simp [hblocks])).length_pos
  refine List.Pairwise.eq_of_mem_iff (r := fun a b : Nat => a < b) (ascending_pairwise _ _) ?_ fun offset => ?_
  · refine List.pairwise_map.2 (List.Pairwise.filter _ ?_)
    refine (placesFrom_pairwise 0 blocks).imp_of_mem fun {e e'} he _ hle => ?_
    have := hpos e he
    omega
  · rw [mem_ascending]
    simp only [List.mem_map]
    constructor
    · rintro ⟨-, hmem⟩
      obtain ⟨a, ha⟩ := hlive offset hmem
      exact ⟨(offset, a), mem_listedAt.2 ⟨ha, hmem⟩, rfl⟩
    · rintro ⟨e, he, rfl⟩
      obtain ⟨hplace, hmem⟩ := mem_listedAt.1 (show (e.1, e.2) ∈ _ from he)
      have hend := le_of_mem_placesFrom_end hplace
      have := hpos e hplace
      exact ⟨by omega, hmem⟩

/-- Where moves lead, by the places that they start from. -/
def relocation (moves : List Move) : Relocation :=
  .ofList (moves.map fun m => (m.source, m.dest)).reverse

/-- What compaction does, in one equation. -/
theorem compact_eq_listedAt (hdata : h.data.data.toList = blocks.flatMap bytes)
    (hframed : ∀ a ∈ blocks, IsFramed (bytes a)) (hlive : ∀ offset ∈ live, ∃ a, (offset, a) ∈ placesFrom bytes 0 blocks) :
    let kept := listedAt bytes blocks live
    let whole := kept.flatMap fun e => bytes e.2
    slideMoves h.data 0 (ascending h.data.size live) = movesTo bytes 0 kept ∧
      (Buffer.front ((movesTo bytes 0 kept).foldl moved h.data) whole.length).data.toList = whole ∧
      h.compact live = ({ h with data := Buffer.front ((movesTo bytes 0 kept).foldl moved h.data) whole.length },
        relocation (movesTo bytes 0 kept), h.data.size - whole.length) := by
  have hrow : h.data.data.toList = [] ++ [] ++ blocks.flatMap bytes := hdata
  obtain ⟨hmoves, hstop, htake⟩ := slide_blocks (fun offset => live.contains offset) [] hrow hframed
  have hkept : ((placesFrom bytes 0 blocks).filter fun e => live.contains e.1) = listedAt bytes blocks live := rfl
  simp only [List.length_nil, List.nil_append, Nat.add_zero, hkept] at hmoves hstop htake
  obtain ⟨hslid, hnotes⟩ := slide_eq_moves h.data 0 [] ((listedAt bytes blocks live).map Prod.fst)
  rw [hmoves] at hslid hnotes
  rw [List.append_nil] at hnotes
  rw [hslid] at htake
  have hrising := ascending_eq_listedAt hdata hframed hlive
  refine ⟨by rw [hrising, hmoves], ?_, ?_⟩
  · rw [Buffer.toList_front]
    exact htake
  · simp only [StringHeap.compact, hrising, hstop, hslid, hnotes, relocation]

/-! ### Relocation -/

theorem listedAt_pairwise (live : List Nat) (hframed : ∀ a ∈ blocks, IsFramed (bytes a)) :
    (listedAt bytes blocks live).Pairwise fun e e' => e.1 < e'.1 := by
  refine List.Pairwise.filter _ ?_
  refine (placesFrom_pairwise 0 blocks).imp_of_mem fun {e e'} he _ hle => ?_
  obtain ⟨before, behind, hblocks, -⟩ := mem_placesFrom.1 (show (e.1, e.2) ∈ _ from he)
  have := (hframed e.2 (by simp [hblocks])).length_pos
  omega

theorem getElem?_relocation_of_mem {moves : List Move} (hrising : moves.Pairwise fun m m' => m.source < m'.source)
    {m : Move} (hmem : m ∈ moves) : (relocation moves)[m.source]? = some m.dest := by
  refine Std.HashMap.getElem?_ofList_of_mem (k := m.source) (by simp) ?_ (by simpa using ⟨m, hmem, rfl, rfl⟩)
  rw [List.pairwise_reverse, List.pairwise_map]
  refine hrising.imp fun {m m'} hlt => ?_
  simp
  omega

theorem getElem?_relocation_eq_none {moves : List Move} {offset : Nat} (hnone : ∀ m ∈ moves, m.source ≠ offset) :
    (relocation moves)[offset]? = none := by
  refine Std.HashMap.getElem?_ofList_of_contains_eq_false ?_
  rw [← Bool.not_eq_true, List.contains_iff_mem]
  simp only [List.map_reverse, List.mem_reverse, List.mem_map]
  rintro ⟨-, ⟨m, hm, rfl⟩, heq⟩
  exact hnone m hm heq

/-- What precedes an offset in a rising list depends on the offset only. -/
theorem before_eq_takeWhile {entries before behind : List (Nat × α)} {offset : Nat} {a : α}
    (hrising : entries.Pairwise fun e e' => e.1 < e'.1) (hsplit : entries = before ++ (offset, a) :: behind) :
    before = entries.takeWhile fun e => decide (e.1 < offset) := by
  rw [hsplit] at hrising
  obtain ⟨-, -, hlt⟩ := List.pairwise_append.1 hrising
  rw [hsplit, List.takeWhile_append_of_pos, List.takeWhile_cons_of_neg, List.append_nil]
  · simp
  · intro e he
    simpa using hlt e he (offset, a) (by simp)

/-- The value of a block that stays leads to where the blocks that stay before it end. -/
theorem relocate_listed (hframed : ∀ a ∈ blocks, IsFramed (bytes a)) {offset : Payload}
    {before behind : List (Nat × α)} {a : α} (hkept : listedAt bytes blocks live = before ++ (offset.val, a) :: behind) :
    ∃ new : Payload, new.val = (before.flatMap fun e => bytes e.2).length ∧
      relocate (relocation (movesTo bytes 0 (listedAt bytes blocks live))) (.string (.owned offset))
        = .string (.owned new) := by
  have hrising := listedAt_pairwise live hframed
  have hle := length_before_le (fun offset => live.contains offset) hkept
  rw [Nat.zero_add] at hle
  have hsmall : (before.flatMap fun e => bytes e.2).length < payloadSize := by
    have := offset.isLt
    omega
  refine ⟨⟨_, hsmall⟩, rfl, ?_⟩
  simp only [relocate]
  by_cases hsame : offset.val = (before.flatMap fun e => bytes e.2).length
  · rw [getElem?_relocation_eq_none]
    · simp only [Value.string.injEq, StringRef.owned.injEq]
      exact Fin.ext hsame
    · intro m hm heq
      obtain ⟨hne, before', a', behind', hsplit, hdest, -⟩ := mem_movesTo.1 hm
      rw [heq] at hsplit hne
      rw [hdest, before_eq_takeWhile hrising hsplit, ← before_eq_takeWhile hrising hkept] at hne
      exact hne (by simpa using hsame)
  · have hmem : (⟨offset.val, (before.flatMap fun e => bytes e.2).length, (bytes a).length⟩ : Move)
        ∈ movesTo bytes 0 (listedAt bytes blocks live) :=
      mem_movesTo.2 ⟨hsame, before, a, behind, hkept, by simp, rfl⟩
    have hfound := getElem?_relocation_of_mem (movesTo_pairwise hrising) hmem
    rw [hfound]
    simp only [dif_pos hsmall]

/-- A value that is at none of the offsets stays as it is. -/
theorem relocate_unlisted {v : Value} (hv : ∀ offset : Payload, v = .string (.owned offset) → offset.val ∉ live) :
    relocate (relocation (movesTo bytes 0 (listedAt bytes blocks live))) v = v := by
  unfold relocate
  split
  case h_2 => rfl
  case h_1 offset =>
    rw [getElem?_relocation_eq_none]
    intro m hm heq
    obtain ⟨-, before, a, behind, hsplit, -⟩ := mem_movesTo.1 hm
    refine hv offset rfl ?_
    have hmem : (m.source, a) ∈ listedAt bytes blocks live := by
      rw [hsplit]
      simp
    exact heq ▸ (mem_listedAt.1 hmem).2

end Heaps

/-! ## Records -/

/-- A record of the buffer: a length of so many bytes, a text of that length, and a zero. -/
structure Record where
  width : Nat
  text : List UInt8
  short : text.length < UInt64.size
  /-- The length fits in its bytes, and they are not too many for a number. -/
  room : Varint.length text.length ≤ width
  width_le : width ≤ Varint.maxLength

namespace Record

/-- A record as it stands in the buffer. -/
def bytes (r : Record) : List UInt8 :=
  Varint.encodePadded r.text.length r.width ++ r.text ++ [0]

theorem length_bytes (r : Record) : r.bytes.length = r.width + r.text.length + 1 := by
  simp [bytes]
  omega

theorem decode_bytes (r : Record) (rest : List UInt8) :
    Varint.decode (r.bytes ++ rest) = some (r.text.length, r.width) := by
  unfold bytes
  rw [List.append_assoc, List.append_assoc]
  exact Varint.decode_encodePadded r.room r.width_le r.short _

theorem isFramed (r : Record) : IsFramed r.bytes :=
  ⟨r.text.length, r.width, r.length_bytes.symm, r.decode_bytes⟩

end Record

section Records

variable {h : StringHeap} {records : List Record} {live : List Nat} {r : Record}

/-- A value reads the text of the record that it is at. -/
theorem bytes_of_record (before behind : List UInt8) (hdata : h.data.data.toList = before ++ r.bytes ++ behind)
    {offset : Payload} (hoffset : offset.val = before.length) : h.bytes (.owned offset) = r.text := by
  have hbyte : Buffer.byte? h.data = fun i => h.data.data.toList[i]? := funext (Buffer.byte?_eq h.data)
  have hsize : h.data.size = before.length + r.bytes.length + behind.length := by
    show h.data.data.toList.length = _
    rw [hdata]
    simp only [List.length_append]
  have hspan : h.span? offset.val = some (before.length + r.width, r.text.length) := by
    have hdecode : Varint.decodeAt (Buffer.byte? h.data) before.length = some (r.text.length, r.width) := by
      rw [hbyte, Varint.decodeAt_eq_decode, hdata, List.append_assoc, List.drop_left, r.decode_bytes]
    rw [r.length_bytes] at hsize
    simp only [span?, hoffset, hdecode]
    rw [if_pos (by omega)]
  rw [bytes_owned hspan, hdata, List.append_assoc, List.drop_append, List.drop_of_length_le (by omega)]
  simp [Record.bytes, List.append_assoc]

theorem bytes_of_mem_placesFrom (hdata : h.data.data.toList = records.flatMap Record.bytes) {offset : Payload}
    (hmem : (offset.val, r) ∈ placesFrom Record.bytes 0 records) : h.bytes (.owned offset) = r.text := by
  obtain ⟨before, behind, rfl, hoffset⟩ := mem_placesFrom.1 hmem
  refine bytes_of_record (before.flatMap Record.bytes) (behind.flatMap Record.bytes) ?_ ?_
  · rw [hdata]
    simp
  · omega

/-- What a compaction makes of a row of records, given offsets of some of them. -/
structure CompactSpec (h : StringHeap) (records : List Record) (live : List Nat) : Prop where
  /-- The buffer is the records asked for, each once, in the order of their offsets. -/
  data_eq : (h.compact live).1.data.data.toList = (listedAt Record.bytes records live).flatMap fun e => e.2.bytes
  /-- The bytes freed are those of the others. -/
  freed_eq : (h.compact live).2.2
    = (((placesFrom Record.bytes 0 records).filter fun e => !live.contains e.1).flatMap fun e => e.2.bytes).length
  /-- The value of a record asked for reads, where it leads now, what it read before. -/
  listed : ∀ (offset : Payload) r, (offset.val, r) ∈ listedAt Record.bytes records live →
    ∃ new : Payload, relocate (h.compact live).2.1 (.string (.owned offset)) = .string (.owned new) ∧
      (h.compact live).1.bytes (.owned new) = r.text ∧ h.bytes (.owned offset) = r.text
  /-- Every other value stays as it is. -/
  unlisted : ∀ v, (∀ offset : Payload, v = .string (.owned offset) → offset.val ∉ live) →
    relocate (h.compact live).2.1 v = v
  /-- The buffer is cut from what the moves made of it. -/
  moves_eq : (h.compact live).1.data.data.toList
    = ((slideMoves h.data 0 (ascending h.data.size live)).foldl moved h.data).data.toList.take
        (h.compact live).1.data.size
  /-- Each move reads and writes within the buffer, as it is then. It copies a record asked for, which is still what it
  was, and ends in front of all records asked for that come behind it. -/
  moves : ∀ done m todo, slideMoves h.data 0 (ascending h.data.size live) = done ++ m :: todo →
    m.source + m.count ≤ (done.foldl moved h.data).size ∧ m.dest + m.count ≤ (done.foldl moved h.data).size ∧
      (∃ r, (m.source, r) ∈ listedAt Record.bytes records live ∧
        ((done.foldl moved h.data).data.toList.drop m.source).take m.count = r.bytes) ∧
      ∀ e ∈ listedAt Record.bytes records live, m.source < e.1 → m.dest + m.count ≤ e.1

/-- The blocks that stay and the others are all there is. -/
theorem length_kept_add_length_others {α : Type} (bytes : α → List UInt8) (keep : α → Bool) (all : List α) :
    ((all.filter keep).flatMap bytes).length + ((all.filter fun a => !keep a).flatMap bytes).length
      = (all.flatMap bytes).length := by
  induction all with
  | nil => rfl
  | cons a rest ih =>
    rw [List.flatMap_cons, List.length_append, ← ih]
    cases hkeep : keep a <;> simp only [List.filter_cons, hkeep, Bool.not_true, Bool.not_false, if_true,
      Bool.false_eq_true, if_false, List.flatMap_cons, List.length_append] <;> omega

theorem freed_eq_length (hdata : h.data.data.toList = records.flatMap Record.bytes) :
    h.data.size - ((listedAt Record.bytes records live).flatMap fun e => e.2.bytes).length
      = (((placesFrom Record.bytes 0 records).filter fun e => !live.contains e.1).flatMap
          fun e => e.2.bytes).length := by
  have hsize : h.data.size = ((placesFrom Record.bytes 0 records).flatMap fun e => e.2.bytes).length := by
    show h.data.data.toList.length = _
    rw [hdata, ← List.flatMap_map Prod.snd Record.bytes, map_snd_placesFrom]
  have hall := length_kept_add_length_others (fun e : Nat × Record => e.2.bytes) (fun e => live.contains e.1)
    (placesFrom Record.bytes 0 records)
  rw [listedAt, hsize]
  omega

/-- A move leads from a record asked for to where it has room, in front of the records asked for that follow. -/
theorem move_cases (hdata : h.data.data.toList = records.flatMap Record.bytes) {m : Move}
    (hm : m ∈ movesTo Record.bytes 0 (listedAt Record.bytes records live)) :
    ∃ r, (m.source, r) ∈ listedAt Record.bytes records live ∧ m.count = r.bytes.length ∧ m.dest ≤ m.source ∧
      m.source + m.count ≤ h.data.size ∧ (h.data.data.toList.drop m.source).take m.count = r.bytes ∧
      ∀ e ∈ listedAt Record.bytes records live, m.source < e.1 → m.source + m.count ≤ e.1 := by
  obtain ⟨-, before, r, behind, hsplit, hdest, hcount⟩ := mem_movesTo.1 hm
  have hlisted : (m.source, r) ∈ listedAt Record.bytes records live := by
    rw [hsplit]
    simp
  have hle := length_before_le (fun offset => live.contains offset) hsplit
  have hplace := (mem_listedAt.1 hlisted).1
  obtain ⟨front, back, hrecords, hsource⟩ := mem_placesFrom.1 hplace
  rw [Nat.zero_add] at hsource
  have hrow : h.data.data.toList = front.flatMap Record.bytes ++ (r.bytes ++ back.flatMap Record.bytes) := by
    rw [hdata, hrecords]
    simp
  refine ⟨r, hlisted, hcount, by omega, ?_, ?_, fun e he hlt => ?_⟩
  · have hend := le_of_mem_placesFrom_end hplace
    have hsize : h.data.size = (records.flatMap Record.bytes).length := by
      rw [← hdata]
      rfl
    omega
  · rw [hrow, hsource, List.drop_left, hcount, List.take_left]
  · have hpairs : (listedAt Record.bytes records live).Pairwise fun e e' => e.1 + e.2.bytes.length ≤ e'.1 :=
      (placesFrom_pairwise 0 records).filter _
    rw [hsplit] at hpairs he
    obtain ⟨-, hbehind, hfront⟩ := List.pairwise_append.1 hpairs
    rcases List.mem_append.1 he with he | he
    · have := hfront e he (m.source, r) List.mem_cons_self
      dsimp only at this
      omega
    · rcases List.mem_cons.1 he with rfl | he
      · exact absurd hlt (Nat.lt_irrefl _)
      · rw [hcount]
        exact (List.pairwise_cons.1 hbehind).1 e he

/-- Compaction is exact. The buffer becomes the records whose offsets are given, in any order and with repetitions, in
rising order of the offsets; values lead to where their records went; and no record is written over before it was
moved. -/
theorem compact_listed (hdata : h.data.data.toList = records.flatMap Record.bytes)
    (hlive : ∀ offset ∈ live, ∃ r, (offset, r) ∈ placesFrom Record.bytes 0 records) :
    CompactSpec h records live := by
  have hframed : ∀ r ∈ records, IsFramed r.bytes := fun r _ => r.isFramed
  obtain ⟨hmoves, hwhole, heq⟩ := compact_eq_listedAt hdata hframed hlive
  refine ⟨?_, ?_, fun offset r hmem => ?_, fun v hv => ?_, ?_, fun done m todo hsplit => ?_⟩
  · rw [heq]
    exact hwhole
  · rw [heq]
    exact freed_eq_length hdata
  · obtain ⟨before, behind, hkept⟩ := List.append_of_mem hmem
    obtain ⟨new, hnew, hrelocate⟩ := relocate_listed hframed hkept
    rw [heq]
    refine ⟨new, hrelocate, ?_, bytes_of_mem_placesFrom hdata (mem_listedAt.1 hmem).1⟩
    refine bytes_of_record _ (behind.flatMap fun e => e.2.bytes) ?_ hnew
    rw [hwhole, hkept]
    simp
  · rw [heq]
    exact relocate_unlisted hv
  · have hcut : (h.compact live).1.data.size
        = ((listedAt Record.bytes records live).flatMap fun e => e.2.bytes).length := by
      show (h.compact live).1.data.data.toList.length = _
      rw [heq]
      exact congrArg List.length hwhole
    rw [hcut, hmoves, heq, ← Buffer.toList_front]
  · rw [hmoves] at hsplit
    have hrising : (movesTo Record.bytes 0 (listedAt Record.bytes records live)).Pairwise
        fun m m' => m.source < m'.source := movesTo_pairwise (listedAt_pairwise live hframed)
    have hm : ∀ m' ∈ done ++ [m], m' ∈ movesTo Record.bytes 0 (listedAt Record.bytes records live) := by
      intro m' hm'
      rw [hsplit, List.append_cons]
      exact List.mem_append_left _ hm'
    rw [hsplit] at hrising
    obtain ⟨r, hlisted, hcount, hle, hroom, hbytes, hnext⟩ := move_cases hdata (hm m (by simp))
    -- What was moved before ends in front of this record.
    have hdone : ∀ m' ∈ done, m'.source + m'.count ≤ h.data.size ∧ m'.dest + m'.count ≤ m.source := by
      intro m' hm'
      obtain ⟨-, -, -, hle', hroom', -, hnext'⟩ := move_cases hdata (hm m' (List.mem_append_left _ hm'))
      have hend := hnext' (m.source, r) hlisted ((List.pairwise_append.1 hrising).2.2 m' hm' m List.mem_cons_self)
      dsimp only at hend
      omega
    obtain ⟨hsize, hdrop⟩ := foldl_moved done (show m.source ≤ h.data.size by omega) hdone
    refine ⟨by omega, by omega, ⟨r, hlisted, by rw [hdrop, hbytes]⟩, fun e he hlt => ?_⟩
    have := hnext e he hlt
    omega

/-- A record of a short text. -/
def Record.ofText (text : List UInt8) (short : text.length < UInt64.size) : Record :=
  ⟨Varint.length text.length, text, short, Nat.le_refl _, Varint.length_le_maxLength short⟩

/-- A record that is left behind, one the length of which takes up two bytes, and one more. -/
def threeRecords : List Record :=
  [.ofText (Text.bytesOf "behind") (by decide +kernel),
    ⟨2, Text.bytesOf "over there", by decide +kernel, by decide +kernel, by decide⟩,
    .ofText (Text.bytesOf "and this") (by decide +kernel)]

/-- The buffer of three records. -/
def holdingThree : StringHeap :=
  { empty 64 (.ofNat 1) with data := (threeRecords.flatMap Record.bytes).toByteArray }

/-- The second record slides onto where it was itself, and the third one is asked for twice. -/
theorem compact_listed_three :
    holdingThree.data.data.toList = threeRecords.flatMap Record.bytes ∧
      (∀ offset ∈ [21, 8, 21], ∃ r, (offset, r) ∈ placesFrom Record.bytes 0 threeRecords) ∧
      CompactSpec holdingThree threeRecords [21, 8, 21] := by
  have hdata : holdingThree.data.data.toList = threeRecords.flatMap Record.bytes := by decide +kernel
  have hlive : ∀ offset ∈ [21, 8, 21], ∃ r, (offset, r) ∈ placesFrom Record.bytes 0 threeRecords := by
    have hsecond : (8, threeRecords[1]) ∈ placesFrom Record.bytes 0 threeRecords :=
      mem_placesFrom.2 ⟨threeRecords.take 1, threeRecords.drop 2, rfl, by decide +kernel⟩
    have hthird : (21, threeRecords[2]) ∈ placesFrom Record.bytes 0 threeRecords :=
      mem_placesFrom.2 ⟨threeRecords.take 2, [], rfl, by decide +kernel⟩
    intro offset hmem
    simp only [List.mem_cons, List.not_mem_nil, or_false] at hmem
    rcases hmem with rfl | rfl | rfl
    · exact ⟨_, hthird⟩
    · exact ⟨_, hsecond⟩
    · exact ⟨_, hthird⟩
  exact ⟨hdata, hlive, compact_listed hdata hlive⟩

end Records

end ScriptEngine.StringHeap
