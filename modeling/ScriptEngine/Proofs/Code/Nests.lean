import ScriptEngine.Proofs.Code.Shape
/-!
Scopes and loops, read off the code.

A `Nest` is what a call has opened and not closed where it stands: scopes, and loops with what they go on at.
`Item.Nests` says that nests, one for each item, go with what an item does, and `Fits` that there are nests for a piece
of code wherever it is put; every piece of a program ends in the nest that it started in, so there is one rule for each
way in which `Shape` puts pieces together, and none of them asks what is on the stack of values.

`Sites` lists the variables that a program declares without a value directly in a loop or a block, each with the item
where the scope of the loop or the block is opened. Between the two lies that one scope (`exists_nests`).
-/

namespace ScriptEngine.Code

open Source (Expr Exprs Entries Elements Stmt Declarator Declarators Commas Body Stmts LoopBody ForStart
  Clause Name)

/-- A loop around an item: the scopes when it was entered, and the items where it goes on. -/
structure Ring where
  scopes : Nat
  exit : Nat
  again : Nat

/-- What a call has opened and not closed. -/
structure Nest where
  scopes : Nat
  /-- The loops, innermost first. -/
  rings : List Ring
  /-- The scopes that a loop was entered in are open. -/
  inside : ∀ r ∈ rings, r.scopes ≤ scopes

namespace Nest

/-- Nothing. -/
def entry : Nest := ⟨0, [], fun _ h => absurd h List.not_mem_nil⟩

/-- In one scope more. -/
def opened (N : Nest) : Nest :=
  ⟨N.scopes + 1, N.rings, fun r h => Nat.le_succ_of_le (N.inside r h)⟩

/-- In a loop that goes on at two items. -/
def looped (N : Nest) (exit again : Nat) : Nest where
  scopes := N.scopes
  rings := ⟨N.scopes, exit, again⟩ :: N.rings
  inside r h := by
    rcases List.mem_cons.mp h with rfl | h
    · exact Nat.le_refl _
    · exact N.inside r h

end Nest

/-! ## Nests that go with items -/

/-- One nest for each item. -/
abbrev Nests := Nat → Nest

/-- What an instruction asks of the nest at it, of the one behind it, and of those at the targets of the loop around
it. -/
def Instr.Nests (nests : Nests) (N next : Nest) : Instr → Prop
  | .newScope => next = N.opened
  | .delScope => N = next.opened
  | .break => ∀ r rest, N.rings = r :: rest → (nests r.exit).scopes = r.scopes ∧ (nests r.exit).rings = rest
  | .continue => ∀ r rest, N.rings = r :: rest →
    (nests r.again).scopes = r.scopes ∧ (nests r.again).rings = r :: rest
  | .return | .exit => True
  | .header | .jmp _ | .jmpTrue _ | .jmpFalse _ | .jmpNeutralTrue _ | .jmpNeutralFalse _ | .loop _ _
  | .pushFunc _ => False
  | _ => next = N

/-- What an item asks of the nests. -/
def Item.Nests (nests : Nests) (i : Nat) : Item → Prop
  | .plain ins _ => ins.Nests nests (nests i) (nests (i + 1))
  | .jump .always ahead => nests (i + 1 + ahead) = nests i
  | .jump _ ahead => nests (i + 1) = nests i ∧ nests (i + 1 + ahead) = nests i
  | .loop exit again =>
    nests (i + 1 + exit) = nests i ∧ nests (i + 1) = (nests i).looped (i + 1 + exit) (i + 1 + again)
      ∧ nests (i + 1 + again) = nests (i + 1)
  | .func behind => nests (i - behind) = .entry ∧ nests (i + 1) = nests i

namespace Nests

/-- At the targets of the loops around an item are the nests that leaving and repeating them leads to. -/
def Grounded (nests : Nests) : List Ring → Prop
  | [] => True
  | r :: rest =>
    ((nests r.exit).scopes = r.scopes ∧ (nests r.exit).rings = rest)
      ∧ ((nests r.again).scopes = r.scopes ∧ (nests r.again).rings = r :: rest) ∧ nests.Grounded rest

/-- Nests from an index on. -/
def Covers (nests : Nests) : Nat → List Nest → Prop
  | _, [] => True
  | a, N :: rest => nests a = N ∧ nests.Covers (a + 1) rest

theorem covers_append {nests : Nests} {a : Nat} {left right : List Nest} :
    nests.Covers a (left ++ right) ↔ nests.Covers a left ∧ nests.Covers (a + left.length) right := by
  induction left generalizing a with
  | nil => exact (true_and _ ▸ Iff.rfl)
  | cons N rest ih =>
    have hlength : a + (N :: rest).length = a + 1 + rest.length := by
      rw [List.length_cons]
      omega
    rw [List.cons_append, Covers, ih, Covers, and_assoc, hlength]

/-- Items agree with nests from an index on. -/
def Agree (nests : Nests) : Nat → List Item → Prop
  | _, [] => True
  | a, x :: rest => x.Nests nests a ∧ nests.Agree (a + 1) rest

theorem agree_append {nests : Nests} {a : Nat} {left right : List Item} :
    nests.Agree a (left ++ right) ↔ nests.Agree a left ∧ nests.Agree (a + left.length) right := by
  induction left generalizing a with
  | nil => exact (true_and _ ▸ Iff.rfl)
  | cons x rest ih =>
    have hlength : a + (x :: rest).length = a + 1 + rest.length := by
      rw [List.length_cons]
      omega
    rw [List.cons_append, Agree, ih, Agree, and_assoc, hlength]

theorem Agree.item {nests : Nests} {a : Nat} {items : List Item} (h : nests.Agree a items) {k : Nat} {x : Item}
    (hx : items[k]? = some x) : x.Nests nests (a + k) := by
  induction items generalizing a k with
  | nil => cases hx
  | cons y rest ih =>
    cases k with
    | zero =>
      cases hx
      exact h.1
    | succ k =>
      have hrest := ih h.2 hx
      rwa [Nat.add_assoc, Nat.add_comm 1 k] at hrest

end Nests

/-! ## Declarations -/

/-- A variable that is declared without a value, directly in a loop or a block: where the scope of that is opened, and
where the declaration starts. -/
structure Site where
  scope : Nat
  start : Nat
  name : Name

/-- Some items stand within others that start at an index. -/
def Contains (a : Nat) (items : List Item) (i : Nat) (xs : List Item) : Prop :=
  ∃ front back, items = front ++ xs ++ back ∧ i = a + front.length

theorem contains_left {a i : Nat} {items xs : List Item} (h : Contains a items i xs) (ys : List Item) :
    Contains a (items ++ ys) i xs := by
  obtain ⟨front, back, rfl, rfl⟩ := h
  exact ⟨front, back ++ ys, by simp only [List.append_assoc], rfl⟩

theorem contains_right {a i : Nat} {items xs : List Item} (ys : List Item) (h : Contains (a + ys.length) items i xs) :
    Contains a (ys ++ items) i xs := by
  obtain ⟨front, back, rfl, rfl⟩ := h
  exact ⟨ys ++ front, back, by simp only [List.append_assoc], by rw [List.length_append, Nat.add_assoc]⟩

theorem Contains.get {i : Nat} {items xs : List Item} (h : Contains 0 items i xs) {j : Nat} (hj : j < xs.length) :
    items[i + j]? = xs[j]? := by
  obtain ⟨front, back, rfl, rfl⟩ := h
  rw [Nat.zero_add, List.append_assoc, List.getElem?_append_right (Nat.le_add_right _ _), Nat.add_sub_cancel_left,
    List.getElem?_append_left hj]

/-- What is known of a piece of code from an index on, by what is declared in it: directly, in the scopes that are open
there, or further in. -/
structure Nests.Suit (nests : Nests) (a scopes : Nat) (items : List Item) (here : List (Nat × Name))
    (sites : List Site) : Prop where
  agree : nests.Agree a items
  here : ∀ d ∈ here, (nests d.1).scopes = scopes ∧ Contains a items d.1 (Shape.declare d.2)
  sites : ∀ s ∈ sites, (nests s.start).scopes = (nests s.scope).scopes + 1
    ∧ Contains a items s.scope [.plain .newScope] ∧ Contains a items s.start (Shape.declare s.name)

/-- A piece of code, with nests for its items, starts and ends in a nest, wherever the loops around have suitable nests
at their targets. -/
structure Fitted (inner : List Nest) (a : Nat) (N : Nest) (items : List Item) (here : List (Nat × Name))
    (sites : List Site) : Prop where
  length : inner.length = items.length
  first : ∀ M ∈ inner.head?, M = N
  suit : ∀ {nests : Nests}, nests.Grounded N.rings → nests.Covers a inner → nests (a + items.length) = N →
    nests.Suit a N.scopes items here sites

/-- There are nests for the items of a piece. -/
def Fits (a : Nat) (N : Nest) (items : List Item) (here : List (Nat × Name)) (sites : List Site) : Prop :=
  ∃ inner : List Nest, Fitted inner a N items here sites

theorem Fitted.start {inner : List Nest} {a : Nat} {N : Nest} {items : List Item} {here : List (Nat × Name)}
    {sites : List Site} (h : Fitted inner a N items here sites) {nests : Nests} (hcovers : nests.Covers a inner)
    (hend : nests (a + items.length) = N) : nests a = N := by
  rw [← h.length] at hend
  cases inner with
  | nil => exact hend
  | cons M rest => exact hcovers.1.trans (h.first M rfl)

namespace Nests

variable {nests : Nests} {a n : Nat} {items items' : List Item} {here here' : List (Nat × Name)}
  {sites sites' : List Site}

theorem Suit.append (h : nests.Suit a n items here sites) (h' : nests.Suit (a + items.length) n items' here' sites') :
    nests.Suit a n (items ++ items') (here ++ here') (sites ++ sites') := by
  refine ⟨agree_append.mpr ⟨h.agree, h'.agree⟩, fun d hd => ?_, fun s hs => ?_⟩
  · rcases List.mem_append.mp hd with hd | hd
    · exact ⟨(h.here d hd).1, contains_left (h.here d hd).2 _⟩
    · exact ⟨(h'.here d hd).1, contains_right _ (h'.here d hd).2⟩
  · rcases List.mem_append.mp hs with hs | hs
    · obtain ⟨hscopes, hopen, hstart⟩ := h.sites s hs
      exact ⟨hscopes, contains_left hopen _, contains_left hstart _⟩
    · obtain ⟨hscopes, hopen, hstart⟩ := h'.sites s hs
      exact ⟨hscopes, contains_right _ hopen, contains_right _ hstart⟩

theorem suit_singleton {item : Item} (h : item.Nests nests a) : nests.Suit a n [item] [] [] :=
  ⟨⟨h, trivial⟩, nofun, nofun⟩

theorem Suit.cons {item : Item} (h : item.Nests nests a) (h' : nests.Suit (a + 1) n items here sites) :
    nests.Suit a n (item :: items) here sites :=
  (suit_singleton h).append h'

/-- In other scopes nothing is declared here. -/
theorem Suit.apart (h : nests.Suit a n items here sites) (n' : Nat) : nests.Suit a n' items [] sites :=
  ⟨h.agree, nofun, h.sites⟩

end Nests

namespace Fits

variable {a : Nat} {N : Nest} {items items' : List Item} {here here' : List (Nat × Name)} {sites sites' : List Site}

theorem cast (h : Fits a N items here sites) (hitems : items' = items) (hhere : here' = here)
    (hsites : sites' = sites) : Fits a N items' here' sites' := by
  rw [hitems, hhere, hsites]
  exact h

/-- Nothing. -/
theorem nothing (a : Nat) (N : Nest) : Fits a N [] [] [] :=
  ⟨[], rfl, nofun, fun _ _ _ => ⟨trivial, nofun, nofun⟩⟩

/-- One piece behind the other. -/
theorem append (h : Fits a N items here sites) (h' : Fits (a + items.length) N items' here' sites') :
    Fits a N (items ++ items') (here ++ here') (sites ++ sites') := by
  obtain ⟨inner, h⟩ := h
  obtain ⟨inner', h'⟩ := h'
  refine ⟨inner ++ inner', by rw [List.length_append, List.length_append, h.length, h'.length], fun M hM => ?_,
    fun {nests} hground hcovers hend => ?_⟩
  · cases inner with
    | nil => exact h'.first M hM
    | cons N' rest => exact h.first M hM
  · rw [Nests.covers_append, h.length] at hcovers
    rw [List.length_append, ← Nat.add_assoc] at hend
    exact (h.suit hground hcovers.1 (h'.start hcovers.2 hend)).append (h'.suit hground hcovers.2 hend)

/-- What is declared in a piece is no matter. -/
theorem apart (h : Fits a N items here sites) : Fits a N items [] sites := by
  obtain ⟨inner, h⟩ := h
  exact ⟨inner, h.length, h.first, fun hground hcovers hend => (h.suit hground hcovers hend).apart _⟩

/-- One instruction, by what it asks. -/
theorem instr {ins : Instr} {complete : ins.isPlain = true}
    (h : ∀ nests : Nests, nests.Grounded N.rings → ins.Nests nests N N) : Fits a N [.plain ins complete] [] [] := by
  refine ⟨[N], rfl, fun M hM => (Option.some.inj hM).symm, fun {nests} hground hcovers hend => ?_⟩
  refine Nests.suit_singleton ?_
  show ins.Nests nests (nests a) (nests (a + 1))
  rw [show nests (a + 1) = N from hend, hcovers.1]
  exact h nests hground

/-- A piece that a jump may pass over. -/
theorem guarded {j : Jump} (hj : j ≠ .always) (h : Fits (a + 1) N items here sites) :
    Fits a N (Shape.guarded j items) here sites := by
  obtain ⟨inner, h⟩ := h
  refine ⟨N :: inner, congrArg (· + 1) h.length, fun M hM => (Option.some.inj hM).symm,
    fun {nests} hground hcovers hend => ?_⟩
  have hlast : nests (a + 1 + items.length) = N := by
    rw [← hend, Shape.guarded, List.length_cons]
    congr 1
    omega
  have hnext := h.start hcovers.2 hlast
  refine .cons ?_ (h.suit hground hcovers.2 hlast)
  cases j with
  | always => exact absurd rfl hj
  | _ => exact ⟨hnext.trans hcovers.1.symm, hlast.trans hcovers.1.symm⟩

/-- One of two pieces. -/
theorem choice (h : Fits (a + 1) N items here sites) (h' : Fits (a + 1 + items.length + 1) N items' here' sites') :
    Fits a N (Shape.choice items items') (here ++ here') (sites ++ sites') := by
  obtain ⟨inner, h⟩ := h
  obtain ⟨inner', h'⟩ := h'
  refine ⟨N :: (inner ++ N :: inner'), by simp [Shape.choice, h.length, h'.length],
    fun M hM => (Option.some.inj hM).symm, fun {nests} hground hcovers hend => ?_⟩
  obtain ⟨hstart, hcovers⟩ := hcovers
  rw [Nests.covers_append, h.length] at hcovers
  obtain ⟨hyes, hskip, hno⟩ := hcovers
  have hlast : nests (a + 1 + items.length + 1 + items'.length) = N := by
    rw [← hend]
    congr 1
    simp only [Shape.choice, List.length_cons, List.length_append]
    omega
  have hjump : Item.Nests nests a (.jump .onFalse (items.length + 1)) :=
    ⟨(h.start hyes hskip).trans hstart.symm, (h'.start hno hlast).trans hstart.symm⟩
  have hover : Item.Nests nests (a + 1 + items.length) (.jump .always items'.length) := hlast.trans hskip.symm
  exact .cons hjump ((h.suit hground hyes hskip).append (.cons hover (h'.suit hground hno hlast)))

/-- What a loop or a block opens a scope for, up to where it is closed. -/
theorem scope (h : Fits (a + 1) N.opened items here sites) :
    Fits a N (.plain .newScope (@rfl Bool true) :: (items ++ [.plain .delScope (@rfl Bool true)])) []
      (here.map (fun d => ⟨a, d.1, d.2⟩) ++ sites) := by
  obtain ⟨inner, h⟩ := h
  refine ⟨N :: (inner ++ [N.opened]), by simp [h.length], fun M hM => (Option.some.inj hM).symm,
    fun {nests} hground hcovers hend => ?_⟩
  obtain ⟨hstart, hcovers⟩ := hcovers
  rw [Nests.covers_append, h.length] at hcovers
  obtain ⟨hpiece, hclose, -⟩ := hcovers
  have hlast : nests (a + 1 + items.length + 1) = N := by
    rw [← hend]
    congr 1
    simp only [List.length_cons, List.length_append, List.length_nil]
    omega
  have hopen : Item.Nests nests a (.plain .newScope (@rfl Bool true)) := by
    show nests (a + 1) = (nests a).opened
    rw [h.start hpiece hclose, hstart]
  have hdelete : Item.Nests nests (a + 1 + items.length) (.plain .delScope (@rfl Bool true)) := by
    show nests (a + 1 + items.length) = (nests (a + 1 + items.length + 1)).opened
    rw [hclose, hlast]
  have hsuit := h.suit hground hpiece hclose
  have hall := Nests.Suit.cons hopen ((hsuit.apart N.scopes).append (Nests.suit_singleton hdelete))
  refine ⟨hall.agree, hall.here, fun s hs => ?_⟩
  rcases List.mem_append.mp hs with hs | hs
  · obtain ⟨d, hd, rfl⟩ := List.mem_map.mp hs
    obtain ⟨hscopes, hcontains⟩ := hsuit.here d hd
    refine ⟨by rw [hscopes, hstart]; rfl, ⟨[], _, rfl, rfl⟩, ?_⟩
    exact contains_right [.plain .newScope (@rfl Bool true)] (contains_left hcontains _)
  · exact hall.sites s (List.mem_append_left _ hs)

/-- A function, out of the way of what is around it. -/
theorem function (h : Fits (a + 1 + 1) Nest.entry.opened items here sites) :
    Fits a N (Shape.function (.plain .newScope (@rfl Bool true) :: (items ++ [.plain .return (@rfl Bool true)]))) []
      sites := by
  obtain ⟨inner, h⟩ := h
  have hcount : (Item.plain .newScope (@rfl Bool true) :: (items ++ [Item.plain .return (@rfl Bool true)])).length
      = items.length + 2 := by simp
  refine ⟨N :: .entry :: (inner ++ [Nest.entry.opened, N]), by simp [Shape.function, h.length],
    fun M hM => (Option.some.inj hM).symm, fun {nests} hground hcovers hend => ?_⟩
  obtain ⟨hstart, hentry, hcovers⟩ := hcovers
  rw [Nests.covers_append, h.length] at hcovers
  obtain ⟨hpiece, hreturn, hfunc, -⟩ := hcovers
  have hlast : nests (a + 1 + 1 + items.length + 1 + 1) = N := by
    rw [← hend]
    congr 1
    simp only [Shape.function, List.length_cons, List.length_append, List.length_nil]
    omega
  rw [Shape.function, hcount]
  have hjump : Item.Nests nests a (.jump .always (items.length + 2)) := by
    show nests (a + 1 + (items.length + 2)) = nests a
    rw [hstart, ← hfunc]
    congr 1
    omega
  have hopen : Item.Nests nests (a + 1) (.plain .newScope (@rfl Bool true)) := by
    show nests (a + 1 + 1) = (nests (a + 1)).opened
    rw [h.start hpiece hreturn, hentry]
  have hpush : Item.Nests nests (a + 1 + 1 + items.length + 1) (.func (items.length + 2)) := by
    refine ⟨?_, hlast.trans hfunc.symm⟩
    rw [← hentry]
    congr 1
    omega
  have hsuit := (h.suit trivial hpiece hreturn).apart N.scopes
  have hbehind : nests.Suit (a + 1 + 1 + items.length) N.scopes
      [.plain .return (@rfl Bool true), .func (items.length + 2)] [] [] :=
    .cons trivial (Nests.suit_singleton hpush)
  have hall := Nests.Suit.cons hjump (.cons hopen (hsuit.append hbehind))
  simpa using hall

/-! ### Loops -/

/-- At the targets of a loop are its own nest and the one around it. -/
theorem grounded_looped {nests : Nests} {exit again : Nat} (hground : nests.Grounded N.rings) (hexit : nests exit = N)
    (hagain : nests again = N.looped exit again) : nests.Grounded (N.looped exit again).rings := by
  refine ⟨?_, ?_, hground⟩
  · rw [hexit]
    exact ⟨rfl, rfl⟩
  · rw [hagain]
    exact ⟨rfl, rfl⟩

/-- The way out of a loop. -/
theorem leave : Fits a N [.plain .pushUndef, .plain .break] [] [] := by
  have hpush : Fits a N [.plain .pushUndef] [] [] := instr fun _ _ => rfl
  refine hpush.append (instr fun nests hground r rest hrings => ?_)
  rw [hrings] at hground
  exact hground.1

/-- The way to the next round of a loop. -/
theorem again : Fits a N [.plain .continue] [] [] := by
  refine instr fun nests hground r rest hrings => ?_
  rw [hrings] at hground
  exact hground.2.1

/-- The items of the rounds of a loop: a test, a body, and the way out. -/
def roundsOf (test body : List Item) : List Item :=
  test ++ .jump .onFalse body.length :: (body ++ [.plain .break (@rfl Bool true)])

theorem length_roundsOf (test body : List Item) : (roundsOf test body).length = test.length + body.length + 2 := by
  simp only [roundsOf, List.length_append, List.length_cons, List.length_nil]
  omega

/-- The nests of the rounds. -/
def nestsOf (M : Nest) (test body : List Nest) : List Nest :=
  test ++ M :: (body ++ [M])

section Rounds

variable {nests : Nests} {exit next : Nat} {test body : List Item} {innerTest innerBody : List Nest}

/-- The rounds of a loop start in its nest. -/
theorem start_rounds (ht : Fitted innerTest a (N.looped exit next) test [] sites)
    (hcovers : nests.Covers a (nestsOf (N.looped exit next) innerTest innerBody)) :
    nests a = N.looped exit next := by
  rw [nestsOf, Nests.covers_append, ht.length] at hcovers
  exact ht.start hcovers.1 hcovers.2.1

/-- They lead out of it. -/
theorem suit_rounds (ht : Fitted innerTest a (N.looped exit next) test [] sites)
    (hb : Fitted innerBody (a + test.length + 1) (N.looped exit next) body here sites')
    (hground : nests.Grounded (N.looped exit next).rings) (hexit : nests exit = N)
    (hcovers : nests.Covers a (nestsOf (N.looped exit next) innerTest innerBody)) :
    nests.Suit a N.scopes (roundsOf test body) here (sites ++ sites') := by
  rw [nestsOf, Nests.covers_append, ht.length] at hcovers
  obtain ⟨htest, hjump, hcovers⟩ := hcovers
  rw [Nests.covers_append, hb.length] at hcovers
  obtain ⟨hbody, hbreak, -⟩ := hcovers
  have hover : Item.Nests nests (a + test.length) (.jump .onFalse body.length) :=
    ⟨(hb.start hbody hbreak).trans hjump.symm, hbreak.trans hjump.symm⟩
  have hleave : Item.Nests nests (a + test.length + 1 + body.length) (.plain .break (@rfl Bool true)) := by
    show ∀ r rest, (nests (a + test.length + 1 + body.length)).rings = r :: rest → _
    rw [hbreak]
    rintro r rest hrings
    cases hrings
    exact ⟨congrArg Nest.scopes hexit, congrArg Nest.rings hexit⟩
  have hend := (hb.suit hground hbody hbreak).append (Nests.suit_singleton hleave)
  have hall := (ht.suit hground htest hjump).append (.cons hover hend)
  rwa [List.nil_append, List.append_nil, List.append_nil] at hall

end Rounds

/-- A loop with a test in front of its body. -/
theorem loop {test body : List Item} (ht : ∀ exit, Fits (a + 1) (N.looped exit (a + 1)) test [] sites)
    (hb : ∀ exit, Fits (a + 1 + test.length + 1) (N.looped exit (a + 1)) body here sites') :
    Fits a N (Shape.loop test body) here (sites ++ sites') := by
  let stop := a + 1 + (roundsOf test body).length
  obtain ⟨innerTest, ht⟩ := ht stop
  obtain ⟨innerBody, hb⟩ := hb stop
  have hlength := length_roundsOf test body
  refine ⟨N :: nestsOf (N.looped stop (a + 1)) innerTest innerBody,
    by simp [Shape.loop, nestsOf, ht.length, hb.length], fun M hM => (Option.some.inj hM).symm,
    fun {nests} hground hcovers hend => ?_⟩
  rw [show Shape.loop test body = .loop (roundsOf test body).length 0 :: roundsOf test body from by
    rw [hlength]; rfl] at hend ⊢
  obtain ⟨hstart, hcovers⟩ := hcovers
  have hexit : nests stop = N := by
    rw [← hend, List.length_cons]
    congr 1
    omega
  have hnext := start_rounds ht hcovers
  have hloop : Item.Nests nests a (.loop (roundsOf test body).length 0) := by
    refine ⟨hexit.trans hstart.symm, ?_, rfl⟩
    rw [hnext, hstart]
  exact .cons hloop (suit_rounds ht hb (grounded_looped hground hexit hnext) hexit hcovers)

/-- A loop with a start, and with a step in front of its test. -/
theorem countingLoop {start step test body : List Item} {starts steps : List Site}
    (hstart : ∀ exit next, Fits (a + 1) (N.looped exit next) start [] starts)
    (hstep : ∀ exit next, Fits (a + 1 + start.length + 1) (N.looped exit next) step [] steps)
    (ht : ∀ exit next, Fits (a + 1 + start.length + 1 + step.length) (N.looped exit next) test [] sites)
    (hb : ∀ exit next, Fits (a + 1 + start.length + 1 + step.length + test.length + 1) (N.looped exit next) body here
      sites') :
    Fits a N (Shape.countingLoop start step test body) here (starts ++ (steps ++ (sites ++ sites'))) := by
  have hlength := length_roundsOf test body
  let size := start.length + (1 + (step.length + (roundsOf test body).length))
  let stop := a + 1 + size
  let next := a + 1 + start.length + 1
  obtain ⟨innerStart, hs⟩ := hstart stop next
  obtain ⟨innerStep, hp⟩ := hstep stop next
  obtain ⟨innerTest, ht⟩ := ht stop next
  obtain ⟨innerBody, hb⟩ := hb stop next
  refine ⟨N :: (innerStart ++ N.looped stop next
      :: (innerStep ++ nestsOf (N.looped stop next) innerTest innerBody)),
    by simp [Shape.countingLoop, nestsOf, hs.length, hp.length, ht.length, hb.length],
    fun M hM => (Option.some.inj hM).symm, fun {nests} hground hcovers hend => ?_⟩
  have hitems : Shape.countingLoop start step test body = .loop size (start.length + 1)
      :: (start ++ .jump .always step.length :: (step ++ roundsOf test body)) := by
    rw [Shape.countingLoop, show start.length + step.length + test.length + body.length + 3 = size by omega]
    rfl
  rw [hitems] at hend ⊢
  obtain ⟨hfirst, hcovers⟩ := hcovers
  rw [Nests.covers_append, hs.length] at hcovers
  obtain ⟨hstarts, hskip, hcovers⟩ := hcovers
  rw [Nests.covers_append, hp.length] at hcovers
  obtain ⟨hsteps, hrounds⟩ := hcovers
  have hexit : nests stop = N := by
    rw [← hend]
    congr 1
    simp only [stop, size, List.length_cons, List.length_append]
    omega
  have hround := start_rounds ht hrounds
  have hagain : nests next = N.looped stop next := hp.start hsteps hround
  have hin := hs.start hstarts hskip
  have hgrounded := grounded_looped hground hexit hagain
  have hloop : Item.Nests nests a (.loop size (start.length + 1)) := by
    refine ⟨hexit.trans hfirst.symm, ?_, hagain.trans hin.symm⟩
    rw [hin, hfirst]
    rfl
  have hover : Item.Nests nests (a + 1 + start.length) (.jump .always step.length) := hround.trans hskip.symm
  have hrest := (hp.suit hgrounded hsteps hround).append (suit_rounds (N := N) ht hb hgrounded hexit hrounds)
  exact .cons hloop ((hs.suit hgrounded hstarts hskip).append (.cons hover hrest))

end Fits

end ScriptEngine.Code
