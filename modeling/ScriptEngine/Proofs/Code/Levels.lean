import ScriptEngine.Proofs.Code.Shape
import ScriptEngine.Proofs.Source.Targets
/-!
Levels of the stacks, read off the code.

A `Level` is what a call has on the stacks above what was there when it was entered. `Item.Agrees` says
that levels, one for each item, go with what an item does: it takes no more than there is, and where the
code goes on the level is the one that it leaves. Levels are put together like code is: `Lays` says that
there are levels for a piece of code, whatever levels stand around it, and there is one rule for each way
in which `Shape` puts pieces together.

Behind an item that does not go on the levels are free, so a statement that returns counts as leaving a
value like every other one.
-/

namespace ScriptEngine.Code

/-- A loop around an item: the values and scopes when it was entered, and the items where it goes on. -/
structure Round where
  height : Nat
  scopes : Nat
  exit : Nat
  again : Nat

/-- What a call has above what was there when it was entered. -/
structure Level where
  /-- The number of values. -/
  height : Nat
  scopes : Nat
  /-- The loops, innermost first. -/
  loops : List Round
  /-- The slots of the callees whose arguments are being computed, innermost first. -/
  pending : List Nat

namespace Level

/-- Nothing but what was there. -/
def entry : Level := ⟨0, 0, [], []⟩

/-- Some values more. -/
def more (L : Level) (n : Nat) : Level :=
  { L with height := L.height + n }

/-- One value more. -/
def push (L : Level) : Level :=
  L.more 1

/-- Around a statement no arguments are being computed, and there are as many values as the loop around
it started with. -/
structure AtStatement (L : Level) : Prop where
  pending : L.pending = []
  loop : ∀ {r rest}, L.loops = r :: rest → L.height = r.height ∧ r.scopes ≤ L.scopes

theorem atStatement_entry : entry.AtStatement :=
  ⟨rfl, fun h => by cases h⟩

end Level

/-! ## What instructions take and leave -/

/-- How many values from the top of the stack an instruction looks at or takes. Calls and returns are
apart: they take all values from a slot on. -/
def Instr.takes : Instr → Nat
  | .drop | .dup | .findScope | .setRetVal | .exit | .args | .jmpTrue _ | .jmpFalse _ | .jmpNeutralTrue _
  | .jmpNeutralFalse _ => 1
  | .dup2 | .swap | .get | .create | .append => 2
  | .forInNext => 3
  | .expr op => op.operands
  | _ => 0

/-- How many values an instruction that goes on behind itself leaves in place of those. -/
def Instr.leaves : Instr → Nat
  | .pushScope | .pushStr _ | .pushTrue | .pushFalse | .pushInt _ | .pushDbl _ | .pushNull | .pushUndef
  | .pushObj | .pushArray | .pushFunc _ | .pushThis | .get | .expr _ => 1
  | .dup | .swap | .findScope => 2
  | .forInNext => 3
  | .dup2 => 4
  | _ => 0

/-- Whether an instruction goes on behind itself and does nothing to the stacks but take and leave
values. -/
def Instr.isFlat : Instr → Bool
  | .args | .call | .newScope | .delScope | .break | .continue | .return | .exit | .header | .jmp _ | .jmpTrue _
  | .jmpFalse _ | .jmpNeutralTrue _ | .jmpNeutralFalse _ | .loop _ _ | .pushFunc _ => false
  | _ => true

/-! ## Levels that go with items -/

/-- One level for each item. -/
abbrev Levels := Nat → Level

/-- What an instruction asks of the level at it, of the one behind it, and of those at the targets of the
loop around it. -/
def Instr.Agrees (levels : Levels) (L next : Level) : Instr → Prop
  | .args => 1 ≤ L.height ∧ next = { L with pending := (L.height - 1) :: L.pending }
  | .call => ∃ slot rest, L.pending = slot :: rest ∧ slot < L.height
      ∧ next = { L with height := slot + 1, pending := rest }
  | .newScope => next = { L with scopes := L.scopes + 1 }
  | .delScope => 1 ≤ L.scopes ∧ next = { L with scopes := L.scopes - 1 }
  | .break => L.pending = [] ∧ ∀ r rest, L.loops = r :: rest → L.height = r.height + 1 ∧ r.scopes ≤ L.scopes
      ∧ levels r.exit = ⟨r.height + 1, r.scopes, rest, []⟩
  | .continue => L.pending = [] ∧ ∀ r rest, L.loops = r :: rest → L.height = r.height ∧ r.scopes ≤ L.scopes
      ∧ levels r.again = ⟨r.height, r.scopes, r :: rest, []⟩
  | .return => L.pending = []
  | .exit => 1 ≤ L.height
  | .header | .jmp _ | .jmpTrue _ | .jmpFalse _ | .jmpNeutralTrue _ | .jmpNeutralFalse _ | .loop _ _
  | .pushFunc _ => False
  | i => i.takes ≤ L.height ∧ next = { L with height := L.height - i.takes + i.leaves }

theorem Instr.agrees_of_isFlat {ins : Instr} (h : ins.isFlat = true) (levels : Levels) (L next : Level) :
    ins.Agrees levels L next
      ↔ ins.takes ≤ L.height ∧ next = { L with height := L.height - ins.takes + ins.leaves } := by
  cases ins <;> first | exact Iff.rfl | cases h

/-- Whatever an instruction is, there is as much as it takes. -/
theorem Instr.Agrees.takes_le {ins : Instr} {levels : Levels} {L next : Level} (h : ins.Agrees levels L next) :
    ins.takes ≤ L.height := by
  cases hflat : ins.isFlat with
  | true => exact ((Instr.agrees_of_isFlat hflat levels L next).mp h).1
  | false =>
    cases ins with
    | args => exact h.1
    | exit => exact h
    | call | newScope | delScope | «break» | «continue» | «return» => exact Nat.zero_le _
    | header | jmp | jmpTrue | jmpFalse | jmpNeutralTrue | jmpNeutralFalse | loop | pushFunc => exact h.elim
    | _ => cases hflat

/-- What an item asks of the levels. -/
def Item.Agrees (levels : Levels) (i : Nat) : Item → Prop
  | .plain ins _ => ins.Agrees levels (levels i) (levels (i + 1))
  | .jump .always ahead => levels (i + 1 + ahead) = levels i
  | .jump .onFalse ahead =>
    1 ≤ (levels i).height ∧ levels (i + 1) = { levels i with height := (levels i).height - 1 }
      ∧ levels (i + 1 + ahead) = levels i
  | .jump _ ahead =>
    1 ≤ (levels i).height ∧ levels (i + 1) = levels i ∧ levels (i + 1 + ahead) = levels i
  | .loop exit again =>
    (levels i).pending = [] ∧ levels (i + 1 + exit) = (levels i).push
      ∧ levels (i + 1) = { levels i with loops :=
          ⟨(levels i).height, (levels i).scopes, i + 1 + exit, i + 1 + again⟩ :: (levels i).loops }
      ∧ levels (i + 1 + again) = levels (i + 1)
  | .func behind => levels (i - behind) = .entry ∧ levels (i + 1) = (levels i).push

namespace Levels

/-- At the targets of the loops around an item are the levels that leaving and repeating them leads to. -/
def Grounded (levels : Levels) : List Round → Prop
  | [] => True
  | r :: rest =>
    levels r.exit = ⟨r.height + 1, r.scopes, rest, []⟩ ∧ levels r.again = ⟨r.height, r.scopes, r :: rest, []⟩
      ∧ levels.Grounded rest

/-- Levels go with items from index `a` on, and from the start of each of the marked ones to its end there
is one value more. -/
structure Suit (levels : Levels) (a : Nat) (items : List Item) (marks : List (Nat × Nat)) : Prop where
  agrees : ∀ {k : Nat} {item : Item}, items[k]? = some item → item.Agrees levels (a + k)
  marked : ∀ {mark : Nat × Nat}, mark ∈ marks →
    a ≤ mark.1 ∧ mark.1 ≤ mark.2 ∧ mark.2 ≤ a + items.length ∧ levels mark.2 = (levels mark.1).push

variable {levels : Levels} {a : Nat} {items items' : List Item} {marks marks' : List (Nat × Nat)}

theorem suit_nil : levels.Suit a [] [] :=
  ⟨fun h => by simp at h, fun h => by simp at h⟩

theorem Suit.append (h : levels.Suit a items marks) (h' : levels.Suit (a + items.length) items' marks') :
    levels.Suit a (items ++ items') (marks ++ marks') := by
  refine ⟨fun {k item} hitem => ?_, fun {mark} hmark => ?_⟩
  · rcases Nat.lt_or_ge k items.length with hk | hk
    · rw [List.getElem?_append_left hk] at hitem
      exact h.agrees hitem
    · rw [List.getElem?_append_right hk] at hitem
      have hagrees := h'.agrees hitem
      rwa [show a + items.length + (k - items.length) = a + k by omega] at hagrees
  · rw [List.length_append]
    rcases List.mem_append.mp hmark with hmark | hmark
    · obtain ⟨hlow, horder, hhigh, hpush⟩ := h.marked hmark
      exact ⟨hlow, horder, by omega, hpush⟩
    · obtain ⟨hlow, horder, hhigh, hpush⟩ := h'.marked hmark
      exact ⟨by omega, horder, by omega, hpush⟩

theorem suit_singleton {item : Item} (h : item.Agrees levels a) : levels.Suit a [item] [] := by
  refine ⟨fun {k other} hother => ?_, fun h => by simp at h⟩
  obtain rfl : k = 0 := by
    have := (List.getElem?_eq_some_iff.mp hother).1
    rw [List.length_singleton] at this
    omega
  cases hother
  exact h

theorem Suit.cons {item : Item} (h : item.Agrees levels a) (h' : levels.Suit (a + 1) items marks) :
    levels.Suit a (item :: items) marks :=
  (suit_singleton h).append h'

/-- Levels of one piece, and behind `n` items those of another. -/
def glue (n : Nat) (f g : Levels) : Levels :=
  fun k => if k < n then f k else g (k - n)

theorem glue_left {n k : Nat} {f g : Levels} (hjoin : f n = g 0) (hk : k ≤ n) : glue n f g k = f k := by
  unfold glue
  split
  · rfl
  · obtain rfl : k = n := by omega
    rw [Nat.sub_self, hjoin]

theorem glue_right (n : Nat) (f g : Levels) (k : Nat) : glue n f g (n + k) = g k := by
  unfold glue
  rw [if_neg (by omega), Nat.add_sub_cancel_left]

/-- A level, and behind it others. -/
def before (L : Level) (f : Levels) : Levels
  | 0 => L
  | k + 1 => f k

theorem before_add (L : Level) (f : Levels) (k : Nat) : before L f (1 + k) = f k := by
  rw [Nat.add_comm]
  rfl

end Levels

/-! ## Pieces -/

/-- From level `L` at index `a` the items lead to level `L'` behind them: there are levels for the items
between, which suit them wherever the loops around have suitable levels at their targets. -/
def Lays (a : Nat) (L : Level) (items : List Item) (marks : List (Nat × Nat)) (L' : Level) : Prop :=
  ∃ inner : Levels, inner 0 = L ∧ inner items.length = L' ∧
    ∀ levels : Levels, levels.Grounded L.loops → (∀ k ≤ items.length, levels (a + k) = inner k) →
      levels.Suit a items marks

namespace Lays

variable {a : Nat} {L M L' : Level} {items items' : List Item} {marks marks' : List (Nat × Nat)}

theorem cast (h : Lays a L items marks L') (hitems : items' = items) (hmarks : marks' = marks) :
    Lays a L items' marks' L' := by
  rw [hitems, hmarks]
  exact h

/-- Nothing. -/
theorem nothing (a : Nat) (L : Level) : Lays a L [] [] L :=
  ⟨fun _ => L, rfl, rfl, fun _ _ _ => Levels.suit_nil⟩

/-- One piece behind the other. -/
theorem append (h : Lays a L items marks M) (h' : Lays (a + items.length) M items' marks' L')
    (hloops : M.loops = L.loops := by rfl) : Lays a L (items ++ items') (marks ++ marks') L' := by
  obtain ⟨f, hstart, hend, hf⟩ := h
  obtain ⟨g, hstart', hend', hg⟩ := h'
  have hjoin : f items.length = g 0 := hend.trans hstart'.symm
  refine ⟨Levels.glue items.length f g, ?_, ?_, fun levels hground hlevels => ?_⟩
  · rw [Levels.glue_left hjoin (Nat.zero_le _), hstart]
  · rw [List.length_append, Levels.glue_right, hend']
  · rw [List.length_append] at hlevels
    refine (hf levels hground fun k hk => ?_).append (hg levels (hloops ▸ hground) fun k hk => ?_)
    · rw [hlevels k (by omega), Levels.glue_left hjoin hk]
    · rw [Nat.add_assoc, hlevels _ (by omega), Levels.glue_right]

/-- One instruction, by what it asks. -/
theorem instr {ins : Instr} {complete : ins.isPlain = true}
    (h : ∀ levels : Levels, levels.Grounded L.loops → ins.Agrees levels L L') :
    Lays a L [.plain ins complete] [] L' := by
  refine ⟨fun k => if k = 0 then L else L', rfl, rfl, fun levels hground hlevels => Levels.suit_singleton ?_⟩
  have hstart := hlevels 0 (Nat.zero_le 1)
  have hend := hlevels 1 (Nat.le_refl 1)
  rw [Nat.add_zero] at hstart
  simp only [if_true] at hstart
  show ins.Agrees levels (levels a) (levels (a + 1))
  rw [hstart, hend]
  exact h levels hground

/-- An instruction behind a piece. -/
theorem thenInstr (h : Lays a L items marks M) {ins : Instr} {complete : ins.isPlain = true}
    (hins : ∀ levels : Levels, levels.Grounded M.loops → ins.Agrees levels M L')
    (hloops : M.loops = L.loops := by rfl) : Lays a L (items ++ [.plain ins complete]) marks L' :=
  (h.append (.instr hins) hloops).cast rfl (List.append_nil marks).symm

/-- An instruction in front of a piece. -/
theorem behindInstr {ins : Instr} {complete : ins.isPlain = true}
    (hins : ∀ levels : Levels, levels.Grounded L.loops → ins.Agrees levels L M)
    (h : Lays (a + 1) M items marks L') (hloops : M.loops = L.loops := by rfl) :
    Lays a L (.plain ins complete :: items) marks L' :=
  (Lays.instr hins).append h hloops

/-- A piece that is marked. -/
theorem mark (h : Lays a L items marks L.push) : Lays a L items ((a, a + items.length) :: marks) L.push := by
  obtain ⟨f, hstart, hend, hf⟩ := h
  refine ⟨f, hstart, hend, fun levels hground hlevels => ?_⟩
  have hsuit := hf levels hground hlevels
  refine ⟨hsuit.agrees, fun hmark => ?_⟩
  rcases List.mem_cons.mp hmark with rfl | hmark
  · have hfirst := hlevels 0 (Nat.zero_le _)
    rw [Nat.add_zero] at hfirst
    refine ⟨Nat.le_refl a, Nat.le_add_right a _, Nat.le_refl _, ?_⟩
    show levels (a + items.length) = (levels a).push
    rw [hlevels _ (Nat.le_refl _), hend, hfirst, hstart]
  · exact hsuit.marked hmark

/-- An item that names no other places than those around it and the end of the piece behind it. -/
theorem behindItem {item : Item} (h : Lays (a + 1) M items marks L')
    (hitem : ∀ levels : Levels, levels.Grounded L.loops → levels a = L → levels (a + 1) = M →
      levels (a + 1 + items.length) = L' → item.Agrees levels a)
    (hground : ∀ levels : Levels, levels.Grounded L.loops → levels (a + 1) = M →
      levels (a + 1 + items.length) = L' → levels.Grounded M.loops) :
    Lays a L (item :: items) marks L' := by
  obtain ⟨f, hstart, hend, hf⟩ := h
  refine ⟨Levels.before L f, rfl, hend, fun levels hlevels hall => ?_⟩
  rw [List.length_cons] at hall
  have hlater (k : Nat) (hk : k ≤ items.length) : levels (a + 1 + k) = f k := by
    rw [Nat.add_assoc, hall _ (by omega), Levels.before_add]
  have hnext : levels (a + 1) = M := (hlater 0 (Nat.zero_le _)).trans hstart
  have hlast : levels (a + 1 + items.length) = L' := (hlater _ (Nat.le_refl _)).trans hend
  exact .cons (hitem levels hlevels (hall 0 (Nat.zero_le _)) hnext hlast)
    (hf levels (hground levels hlevels hnext hlast) hlater)

/-! ## Jumps -/

/-- A piece that a jump may pass over, keeping the value that it looks at. -/
theorem guardedKept {j : Jump} (hj : j = .onTrueKept ∨ j = .onFalseKept)
    (h : Lays (a + 1) L.push items marks L.push) :
    Lays a L.push (Shape.guarded j items) marks L.push := by
  refine h.behindItem (fun levels _ hfirst hnext hlast => ?_) fun _ hground _ _ => hground
  have hagrees : 1 ≤ (levels a).height ∧ levels (a + 1) = levels a
      ∧ levels (a + 1 + items.length) = levels a := by
    rw [hfirst, hnext, hlast]
    exact ⟨Nat.le_add_left 1 L.height, rfl, rfl⟩
  rcases hj with rfl | rfl <;> exact hagrees

/-- A piece that a jump may pass over, leaving a value in place of the one that it takes. -/
theorem guarded (h : Lays (a + 1) L items marks L.push) :
    Lays a L.push (Shape.guarded .onFalse items) marks L.push := by
  refine h.behindItem (fun levels _ hfirst hnext hlast => ?_) fun _ hground _ _ => hground
  show 1 ≤ (levels a).height ∧ levels (a + 1) = { levels a with height := (levels a).height - 1 }
    ∧ levels (a + 1 + items.length) = levels a
  rw [hfirst, hnext, hlast]
  exact ⟨Nat.le_add_left 1 L.height, rfl, rfl⟩

/-- One of two pieces. The value that the jump leaves is for the second one to take. -/
theorem choice (h : Lays (a + 1) L items marks L.push)
    (h' : Lays (a + 1 + items.length + 1) L.push items' marks' L.push) :
    Lays a L.push (Shape.choice items items') (marks ++ marks') L.push := by
  obtain ⟨f, hstart, hend, hf⟩ := h
  obtain ⟨g, hstart', hend', hg⟩ := h'
  have hlength : (Shape.choice items items').length = 1 + (items.length + (1 + items'.length)) := by
    simp [Shape.choice]
    omega
  refine ⟨.before L.push (.glue items.length f (.before L.push g)), rfl, ?_, fun levels hground hlevels => ?_⟩
  · rw [hlength, Levels.before_add, Levels.glue_right, Levels.before_add, hend']
  · rw [hlength] at hlevels
    have hfirst : levels a = L.push := hlevels 0 (Nat.zero_le _)
    have hyes (k : Nat) (hk : k ≤ items.length) : levels (a + 1 + k) = f k := by
      rw [Nat.add_assoc, hlevels _ (by omega), Levels.before_add, Levels.glue_left hend hk]
    have hno (k : Nat) (hk : k ≤ items'.length) : levels (a + 1 + items.length + 1 + k) = g k := by
      rw [show a + 1 + items.length + 1 + k = a + (1 + (items.length + (1 + k))) by omega, hlevels _ (by omega),
        Levels.before_add, Levels.glue_right, Levels.before_add]
    have hnext : levels (a + 1) = L := (hyes 0 (Nat.zero_le _)).trans hstart
    have hsecond : levels (a + 1 + items.length + 1) = L.push := (hno 0 (Nat.zero_le _)).trans hstart'
    have hjump : Item.Agrees levels a (.jump .onFalse (items.length + 1)) := by
      show 1 ≤ (levels a).height ∧ levels (a + 1) = { levels a with height := (levels a).height - 1 }
        ∧ levels (a + 1 + items.length + 1) = levels a
      rw [hfirst, hnext, hsecond]
      exact ⟨Nat.le_add_left 1 L.height, rfl, rfl⟩
    have hskip : Item.Agrees levels (a + 1 + items.length) (.jump .always items'.length) := by
      show levels (a + 1 + items.length + 1 + items'.length) = levels (a + 1 + items.length)
      rw [hyes _ (Nat.le_refl _), hend, hno _ (Nat.le_refl _), hend']
    exact .cons hjump ((hf levels hground hyes).append (.cons hskip (hg levels hground hno)))

/-! ## Functions and loops -/

/-- A function out of the way of what is around it. -/
theorem function (h : Lays (a + 1) .entry items marks M) (hpending : M.pending = []) :
    Lays a L (Shape.function (items ++ [.plain .return])) marks L.push := by
  obtain ⟨f, hstart, hend, hf⟩ := h
  have hcount : (items ++ [Item.plain .return]).length = items.length + 1 := by
    rw [List.length_append, List.length_singleton]
  have hlength : (Shape.function (items ++ [.plain .return])).length = 1 + (items.length + 1 + (1 + 0)) := by
    simp [Shape.function]
    omega
  refine ⟨.before L (.glue (items.length + 1) f (.before L fun _ => L.push)), rfl, ?_, fun levels _ hlevels => ?_⟩
  · rw [hlength, Levels.before_add, Levels.glue_right, Levels.before_add]
  · rw [hlength] at hlevels
    have hfirst : levels a = L := hlevels 0 (Nat.zero_le _)
    have hcode (k : Nat) (hk : k ≤ items.length) : levels (a + 1 + k) = f k := by
      rw [Nat.add_assoc, hlevels _ (by omega), Levels.before_add, Levels.glue, if_pos (by omega)]
    have hfunc : levels (a + 1 + (items.length + 1)) = L := by
      rw [show a + 1 + (items.length + 1) = a + (1 + (items.length + 1 + 0)) by omega, hlevels _ (by omega),
        Levels.before_add, Levels.glue_right]
      rfl
    have hbehind : levels (a + 1 + (items.length + 1) + 1) = L.push := by
      rw [show a + 1 + (items.length + 1) + 1 = a + (1 + (items.length + 1 + (1 + 0))) by omega,
        hlevels _ (by omega), Levels.before_add, Levels.glue_right, Levels.before_add]
    have hjump : Item.Agrees levels a (.jump .always (items ++ [Item.plain .return]).length) := by
      show levels (a + 1 + (items ++ [Item.plain .return]).length) = levels a
      rw [hcount, hfunc, hfirst]
    have hreturn : Item.Agrees levels (a + 1 + items.length) (.plain .return) := by
      show (levels (a + 1 + items.length)).pending = []
      rw [hcode _ (Nat.le_refl _), hend, hpending]
    have hpush : Item.Agrees levels (a + 1 + (items.length + 1))
        (.func (items ++ [Item.plain .return]).length) := by
      show levels (a + 1 + (items.length + 1) - (items ++ [Item.plain .return]).length) = .entry
        ∧ levels (a + 1 + (items.length + 1) + 1) = (levels (a + 1 + (items.length + 1))).push
      rw [hcount, Nat.add_sub_cancel, hfunc, hbehind]
      exact ⟨(hcode 0 (Nat.zero_le _)).trans hstart, rfl⟩
    have hbody : levels.Suit (a + 1) (items ++ [.plain .return]) (marks ++ []) :=
      (hf levels trivial hcode).append (Levels.suit_singleton hreturn)
    rw [← hcount] at hpush
    have hall := Levels.Suit.cons hjump (hbody.append (Levels.suit_singleton hpush))
    rwa [List.append_nil, List.append_nil] at hall

/-- The level in a loop that was entered at a level. -/
def inLoop (L : Level) (exit again : Nat) : Level :=
  { L with loops := ⟨L.height, L.scopes, exit, again⟩ :: L.loops }

theorem atStatement_inLoop (hpending : L.pending = []) (exit again : Nat) :
    (inLoop L exit again).AtStatement :=
  ⟨hpending, fun h => by cases h; exact ⟨rfl, Nat.le_refl _⟩⟩

theorem grounded_inLoop (hpending : L.pending = []) {levels : Levels} {exit again : Nat}
    (hground : levels.Grounded L.loops) (hexit : levels exit = L.push)
    (hagain : levels again = inLoop L exit again) : levels.Grounded (inLoop L exit again).loops := by
  refine ⟨?_, ?_, hground⟩
  · rw [hexit, Level.push, Level.more, hpending]
  · rw [hagain, inLoop, hpending]

/-- The way out of a loop. -/
theorem leave {L : Level} (h : L.AtStatement) (M : Level) : Lays a L.push [.plain .break] [] M := by
  refine .instr fun levels hground => ⟨h.pending, fun r rest hloops => ?_⟩
  obtain ⟨hheight, hscopes⟩ := h.loop hloops
  rw [hloops] at hground
  exact ⟨congrArg (· + 1) hheight, hscopes, hground.1⟩

/-- The way to the next round of a loop. -/
theorem again (h : L.AtStatement) (M : Level) : Lays a L [.plain .continue] [] M := by
  refine .instr fun levels hground => ⟨h.pending, fun r rest hloops => ?_⟩
  obtain ⟨hheight, hscopes⟩ := h.loop hloops
  rw [hloops] at hground
  exact ⟨hheight, hscopes, hground.2.1⟩

/-- The items of the rounds of a loop: a test, and a body that goes on to the next round. -/
def roundsOf (test body : List Item) : List Item :=
  test ++ (Shape.guarded .onFalse (body ++ [.plain .continue (@rfl Bool true)]) ++ [.plain .break (@rfl Bool true)])

theorem length_roundsOf (test body : List Item) :
    (roundsOf test body).length = test.length + (body ++ [Item.plain .continue]).length + 2 := by
  simp [roundsOf, Shape.guarded]
  omega

theorem rounds {exit next : Nat} (hpending : L.pending = [])
    (h : Lays a (inLoop L exit next) items marks (inLoop L exit next).push)
    (h' : Lays (a + items.length + 1) (inLoop L exit next) items' marks' (inLoop L exit next)) :
    Lays a (inLoop L exit next) (roundsOf items items') (marks ++ marks') L.push := by
  have hin := atStatement_inLoop hpending exit next
  have hbody := h'.append (Lays.again hin (inLoop L exit next).push)
  have hall := h.append (hbody.guarded.append (Lays.leave hin L.push))
  rwa [List.append_nil, List.append_nil] at hall

/-- A loop with a test in front of its body. -/
theorem loop (hpending : L.pending = [])
    (h : ∀ exit, Lays (a + 1) (inLoop L exit (a + 1)) items marks (inLoop L exit (a + 1)).push)
    (h' : ∀ exit, Lays (a + 1 + items.length + 1) (inLoop L exit (a + 1)) items' marks' (inLoop L exit (a + 1))) :
    Lays a L (Shape.loop items (items' ++ [.plain .continue])) (marks ++ marks') L.push := by
  let stop := a + 1 + (roundsOf items items').length
  have hrounds := rounds hpending (h stop) (h' stop)
  rw [Shape.loop, ← length_roundsOf]
  refine hrounds.behindItem (fun levels _ hfirst hnext hlast => ?_) fun levels hground hnext hlast =>
    grounded_inLoop hpending hground hlast hnext
  show (levels a).pending = [] ∧ levels stop = (levels a).push
    ∧ levels (a + 1) = inLoop (levels a) stop (a + 1) ∧ levels (a + 1) = levels (a + 1)
  rw [hfirst]
  exact ⟨hpending, hlast, hnext, rfl⟩

/-- A loop with a start, and with a step in front of its test. -/
theorem countingLoop {start step : List Item} {starts steps : List (Nat × Nat)} (hpending : L.pending = [])
    (hstart : ∀ exit next, Lays (a + 1) (inLoop L exit next) start starts (inLoop L exit next))
    (hstep : ∀ exit next, Lays (a + 1 + start.length + 1) (inLoop L exit next) step steps (inLoop L exit next))
    (h : ∀ exit next, Lays (a + 1 + start.length + 1 + step.length) (inLoop L exit next) items marks
      (inLoop L exit next).push)
    (h' : ∀ exit next, Lays (a + 1 + start.length + 1 + step.length + items.length + 1) (inLoop L exit next)
      items' marks' (inLoop L exit next)) :
    Lays a L (Shape.countingLoop start step items (items' ++ [.plain .continue]))
      (starts ++ (steps ++ (marks ++ marks'))) L.push := by
  have hcount : start.length + step.length + items.length + (items' ++ [Item.plain .continue]).length + 3
      = start.length + (1 + (step.length + (roundsOf items items').length)) := by
    have hrounds := length_roundsOf items items'
    omega
  have hlength : (Shape.countingLoop start step items (items' ++ [.plain .continue])).length
      = 1 + (start.length + (1 + (step.length + (roundsOf items items').length))) := by
    rw [← hcount]
    simp [Shape.countingLoop]
    omega
  let stop := a + 1 + (start.length + (1 + (step.length + (roundsOf items items').length)))
  let next := a + 1 + (start.length + 1)
  obtain ⟨f, hf₀, hf₁, hf⟩ := hstart stop next
  obtain ⟨g, hg₀, hg₁, hg⟩ := hstep stop next
  obtain ⟨k, hk₀, hk₁, hk⟩ := rounds hpending (h stop next) (h' stop next)
  have hjoin : g step.length = k 0 := hg₁.trans hk₀.symm
  refine ⟨.before L (.glue start.length f (.before (inLoop L stop next) (.glue step.length g k))), rfl, ?_,
    fun levels hground hlevels => ?_⟩
  · rw [hlength, Levels.before_add, Levels.glue_right, Levels.before_add, Levels.glue_right, hk₁]
  · rw [hlength] at hlevels
    have hfirst : levels a = L := hlevels 0 (Nat.zero_le _)
    have hstarts (i : Nat) (hi : i ≤ start.length) : levels (a + 1 + i) = f i := by
      rw [Nat.add_assoc, hlevels _ (by omega), Levels.before_add, Levels.glue_left hf₁ hi]
    have hsteps (i : Nat) (hi : i ≤ step.length) : levels (a + 1 + start.length + 1 + i) = g i := by
      rw [show a + 1 + start.length + 1 + i = a + (1 + (start.length + (1 + i))) by omega, hlevels _ (by omega),
        Levels.before_add, Levels.glue_right, Levels.before_add, Levels.glue_left hjoin hi]
    have hrounds (i : Nat) (hi : i ≤ (roundsOf items items').length) :
        levels (a + 1 + start.length + 1 + step.length + i) = k i := by
      rw [show a + 1 + start.length + 1 + step.length + i
          = a + (1 + (start.length + (1 + (step.length + i)))) by omega, hlevels _ (by omega),
        Levels.before_add, Levels.glue_right, Levels.before_add, Levels.glue_right]
    have hstop : levels stop = L.push := by
      rw [← hk₁, ← hrounds _ (Nat.le_refl _)]
      exact congrArg levels (by omega)
    have hnext : levels next = inLoop L stop next := (hsteps 0 (Nat.zero_le _)).trans hg₀
    have hin : levels (a + 1) = inLoop L stop next := (hstarts 0 (Nat.zero_le _)).trans hf₀
    have hgrounded := grounded_inLoop hpending hground hstop hnext
    have hskip : Item.Agrees levels (a + 1 + start.length) (.jump .always step.length) := by
      show levels (a + 1 + start.length + 1 + step.length) = levels (a + 1 + start.length)
      rw [hstarts _ (Nat.le_refl _), hf₁]
      exact (hrounds 0 (Nat.zero_le _)).trans hk₀
    have hloop : Item.Agrees levels a (.loop (start.length + (1 + (step.length + (roundsOf items items').length)))
        (start.length + 1)) := by
      show (levels a).pending = [] ∧ levels stop = (levels a).push
        ∧ levels (a + 1) = inLoop (levels a) stop next ∧ levels next = levels (a + 1)
      rw [hfirst, hin]
      exact ⟨hpending, hstop, rfl, hnext⟩
    rw [Shape.countingLoop, hcount]
    exact .cons hloop ((hf levels hgrounded hstarts).append (.cons hskip
      ((hg levels hgrounded hsteps).append (hk levels hgrounded hrounds))))

end Lays

end ScriptEngine.Code
