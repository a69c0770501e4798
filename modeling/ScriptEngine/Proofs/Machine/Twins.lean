import Mathlib.Logic.Equiv.Fintype
import ScriptEngine.Proofs.Code.Programs
import ScriptEngine.Proofs.Machine.Quiet
/-!
Machines that do the same over two programs.

Two machines are `Alike` by an atlas if one becomes the other whenever functions, call sites, targets of
loops and the place of the latest failure are moved in a way that agrees with the atlas. Since all such
moves have to agree, an offset that the machine holds is one that the atlas knows (`known_of_entry`,
`known_of_site`, `known_of_target`).
-/

namespace ScriptEngine

open Code (Atlas Sheet)

/-! ## Moves that go by an atlas -/

/-- A move takes the items of an atlas to their other places. -/
structure Move.Fits (M : Move) (A : Atlas) : Prop where
  target : ∀ {o o' : Nat}, A.Known o o' → M.target o = o'
  failure : ∀ {o o' : Nat}, A.Known o o' → M.failure o = o'
  failure_zero : M.failure 0 = 0
  entry : ∀ {o o' : Nat}, A.Known o o' → M.entry o = o'
  site : ∀ {o o' : Nat}, A.KnownCall o o' → M.site o = o'

namespace Code.Atlas

variable {A : Atlas} {p p' : Program}

theorem getElem?_mono {B : Atlas} {k : Nat} {s : Sheet} (hle : A <+: B) (h : A[k]? = some s) :
    B[k]? = some s := by
  obtain ⟨rest, rfl⟩ := hle
  exact (List.getElem?_append_left (List.getElem?_eq_some_iff.mp h).1).trans h

theorem Known.mono {B : Atlas} {o o' : Nat} (h : A.Known o o') (hle : A <+: B) : Known B o o' := by
  obtain ⟨k, s, i, hs, hi, rfl, rfl⟩ := h
  exact ⟨k, s, i, getElem?_mono hle hs, hi, rfl, rfl⟩

theorem KnownCall.mono {B : Atlas} {o o' : Nat} (h : A.KnownCall o o') (hle : A <+: B) :
    KnownCall B o o' := by
  obtain ⟨k, s, i, hs, hi, rfl, rfl⟩ := h
  exact ⟨k, s, i, getElem?_mono hle hs, hi, rfl, rfl⟩

end Code.Atlas

theorem Move.Fits.anti {M : Move} {A B : Atlas} (h : M.Fits B) (hle : A <+: B) : M.Fits A :=
  ⟨fun hk => h.target (hk.mono hle), fun hk => h.failure (hk.mono hle), h.failure_zero,
    fun hk => h.entry (hk.mono hle), fun hk => h.site (hk.mono hle)⟩

namespace Code.Atlas

variable {A : Atlas} {p p' : Program}

/-- There is a move that goes by the atlas of two programs. -/
theorem Describes.exists_fits (h : A.Describes p p') : ∃ M : Move, M.Fits A := by
  classical
  let partner (o : Nat) : Nat := if hk : ∃ o', A.Known o o' then hk.choose else o
  have hpartner {o o' : Nat} (hk : A.Known o o') : partner o = o' := by
    have hex : ∃ o', A.Known o o' := ⟨o', hk⟩
    show (if hk : ∃ o', A.Known o o' then hk.choose else o) = o'
    rw [dif_pos hex]
    exact h.known_right hex.choose_spec hk
  let start (x : { x : Payload // ∃ o', A.Known x.val o' }) : Payload :=
    ⟨x.2.choose, (h.known_bounds' x.2.choose_spec).2⟩
  have hstart : Function.Injective start := by
    intro x y heq
    have hval : x.2.choose = y.2.choose := congrArg Fin.val heq
    exact Subtype.ext (Fin.ext (h.known_left x.2.choose_spec (hval ▸ y.2.choose_spec)))
  obtain ⟨σ, hσ⟩ := Equiv.Perm.exists_extending_pair _ start Subtype.val_injective hstart
  refine ⟨⟨⟨σ, σ.injective⟩, partner, partner, partner, .empty, ⟨"", none⟩, 0⟩, hpartner, hpartner, ?_, ?_,
    fun hk => hpartner hk.known⟩
  · show (if hk : ∃ o', A.Known 0 o' then hk.choose else 0) = 0
    rw [dif_neg]
    rintro ⟨o', hk⟩
    have := (h.known_bounds hk).1
    omega
  · intro o o' hk
    have hlt := (h.known_bounds hk).2
    have hex : ∃ o', A.Known (⟨o, hlt⟩ : Payload).val o' := ⟨o', hk⟩
    simp only [Move.entry, dif_pos hlt]
    rw [hσ ⟨⟨o, hlt⟩, hex⟩]
    exact h.known_right hex.choose_spec hk

/-- What all moves take to one place is known to the atlas. -/
theorem Describes.known_of_target (h : A.Describes p p') {o o' : Nat}
    (hall : ∀ M : Move, M.Fits A → o' = M.target o) : A.Known o o' := by
  classical
  obtain ⟨M, hM⟩ := h.exists_fits
  by_cases hknown : ∃ x, A.Known o x
  · obtain ⟨x, hx⟩ := hknown
    rwa [hall M hM, hM.target hx]
  · have hother := hall { M with target := Function.update M.target o (o' + 1) }
      ⟨fun {q q'} hk => by
        have hne : q ≠ o := fun heq => hknown ⟨q', heq ▸ hk⟩
        simpa [Function.update_of_ne hne] using hM.target hk,
        hM.failure, hM.failure_zero, hM.entry, hM.site⟩
    simp at hother

theorem Describes.known_of_site (h : A.Describes p p') {o o' : Nat}
    (hall : ∀ M : Move, M.Fits A → o' = M.site o) : A.KnownCall o o' := by
  classical
  obtain ⟨M, hM⟩ := h.exists_fits
  by_cases hknown : ∃ x, A.KnownCall o x
  · obtain ⟨x, hx⟩ := hknown
    rwa [hall M hM, hM.site hx]
  · have hother := hall { M with site := Function.update M.site o (o' + 1) }
      ⟨hM.target, hM.failure, hM.failure_zero, hM.entry, fun {q q'} hk => by
        have hne : q ≠ o := fun heq => hknown ⟨q', heq ▸ hk⟩
        simpa [Function.update_of_ne hne] using hM.site hk⟩
    simp at hother

/-- Two payloads are no offsets of items, so that a function which starts at none can be moved in two
ways. -/
theorem Describes.known_of_entry (h : A.Describes p p') {start : Payload} {o' : Nat}
    (hall : ∀ M : Move, M.Fits A → o' = M.entry start.val) : A.Known start.val o' := by
  obtain ⟨M, hM⟩ := h.exists_fits
  by_cases hknown : ∃ x, A.Known start.val x
  · obtain ⟨x, hx⟩ := hknown
    rwa [hall M hM, hM.entry hx]
  · obtain ⟨z, hz, hne⟩ : ∃ z : Payload, z.val ≤ 1 ∧ z ≠ start := by
      by_cases hzero : start.val = 0
      · exact ⟨⟨1, by decide⟩, Nat.le_refl 1, fun heq => by
          rw [← heq] at hzero
          exact absurd hzero (by decide)⟩
      · exact ⟨⟨0, by decide⟩, by decide, fun heq => hzero (by rw [← heq])⟩
    let swapped : Renaming := ⟨fun x => M.functions.offset (Equiv.swap start z x),
      M.functions.injective.comp (Equiv.injective _)⟩
    have hother := hall { M with functions := swapped } ⟨hM.target, hM.failure, hM.failure_zero,
      fun {q q'} hk => by
        have hbounds := h.known_bounds hk
        have hfixed : Equiv.swap start z ⟨q, hbounds.2⟩ = ⟨q, hbounds.2⟩ := by
          refine Equiv.swap_apply_of_ne_of_ne ?_ ?_
          · intro heq
            exact hknown ⟨q', by rw [← heq]; exact hk⟩
          · intro heq
            have : q = z.val := congrArg Fin.val heq
            omega
        have hentry := hM.entry hk
        simp only [Move.entry, dif_pos hbounds.2] at hentry ⊢
        show (M.functions.offset (Equiv.swap start z ⟨q, hbounds.2⟩)).val = q'
        rw [hfixed]
        exact hentry,
      hM.site⟩
    rw [hall M hM, Move.entry_val, Move.entry_val] at hother
    have hoffset : M.functions.offset start = M.functions.offset (Equiv.swap start z start) := Fin.ext hother
    rw [Equiv.swap_apply_left] at hoffset
    exact absurd (M.functions.injective hoffset).symm hne

end Code.Atlas

/-! ## Values and texts -/

/-- Values that differ at most in the offset of a function, which is the same item. -/
inductive ValueLike (A : Atlas) : Value → Value → Prop
  | function {start start' : Payload} (h : A.Known start.val start'.val) :
    ValueLike A (.function start) (.function start')
  | same {v : Value} (h : ∀ start, v ≠ .function start) : ValueLike A v v

/-- Texts that differ at most in printed offsets of the same items. -/
inductive TextLike (A : Atlas) : String → String → Prop
  | same (s : String) : TextLike A s s
  | offset {o o' : Nat} (h : A.Known o o') : TextLike A (toString o) (toString o')
  | append {s s' t t' : String} (h : TextLike A s s') (h' : TextLike A t t') :
    TextLike A (s ++ t) (s' ++ t')

section Values

variable {A B : Atlas} {p p' : Code.Program} {v v' : Value}

theorem ValueLike.eq (h : ValueLike A v v') {M : Move} (hM : M.Fits A) : v' = M.value v := by
  cases h with
  | function h =>
    have hentry := hM.entry h
    rw [Move.entry_val] at hentry
    exact congrArg Value.function (Fin.ext hentry.symm)
  | same h => cases v <;> first | rfl | exact absurd rfl (h _)

theorem Code.Atlas.Describes.valueLike (h : A.Describes p p') (hall : ∀ {M : Move}, M.Fits A → v' = M.value v) :
    ValueLike A v v' := by
  obtain ⟨M, hM⟩ := h.exists_fits
  cases v with
  | function start =>
    obtain rfl := hall hM
    refine .function (h.known_of_entry fun N hN => ?_)
    rw [Move.entry_val, Value.function.inj (hall hN)]
  | _ =>
    rw [hall hM]
    exact .same fun start heq => by cases heq

theorem ValueLike.mono (h : ValueLike A v v') (hle : A <+: B) : ValueLike B v v' := by
  cases h with
  | function h => exact .function (h.mono hle)
  | same h => exact .same h

theorem TextLike.mono {s s' : String} (h : TextLike A s s') (hle : A <+: B) : TextLike B s s' := by
  induction h with
  | same s => exact .same s
  | offset h => exact .offset (h.mono hle)
  | append _ _ ih ih' => exact .append ih ih'

end Values

/-! ## Machines -/

/-- A move into the program of another machine. -/
def Move.towards {W : Type} (M : Move) (m : Machine W) : Move :=
  { M with program := m.program, output := m.output, width := m.options.placeholderWidth }

theorem Move.Fits.towards {W : Type} {M : Move} {A : Atlas} (h : M.Fits A) (m : Machine W) :
    (M.towards m).Fits A :=
  ⟨h.target, h.failure, h.failure_zero, h.entry, h.site⟩

namespace Machine

variable {W α β : Type} {A B : Atlas} {w w' : Nat} {m m' : Machine W}

/-- Machines of two widths that differ in these and in their code, and otherwise only in offsets, which
are those of the same items. -/
structure Like (A : Atlas) (w w' : Nat) (m m' : Machine W) : Prop where
  describes : A.Describes m.program m'.program
  width : m.options.placeholderWidth = w
  width' : m'.options.placeholderWidth = w'
  text : TextLike A m.output.text m'.output.text
  broken : m'.output.broken = m.output.broken
  moved : ∀ {M : Move}, M.Fits A → m' = (M.towards m').machine m

/-- What came of work on two machines: the same error, or results in a relation. -/
inductive WorkLike (A : Atlas) (w w' : Nat) (R : α → β → Prop) :
    EStateM.Result Error (Machine W) α → EStateM.Result Error (Machine W) β → Prop
  | ok {a : α} {b : β} {m m' : Machine W} (hlike : Like A w w' m m') (h : R a b) :
    WorkLike A w w' R (.ok a m) (.ok b m')
  | error (e : Error) {m m' : Machine W} (hlike : Like A w w' m m') :
    WorkLike A w w' R (.error e m) (.error e m')

theorem WorkLike.imp {R S : α → β → Prop} {r : EStateM.Result Error (Machine W) α}
    {r' : EStateM.Result Error (Machine W) β} (h : WorkLike A w w' R r r') (himp : ∀ a b, R a b → S a b) :
    WorkLike A w w' S r r' := by
  cases h with
  | ok hlike h => exact .ok hlike (himp _ _ h)
  | error e hlike => exact .error e hlike

/-- Work that does over other code what it does over its own comes to the same on machines that are
alike. -/
theorem Like.work (h : Like A w w' m m') {work : Work W α} {work' : Work W β} {f : Move → α → β}
    (hpar : ∀ {M : Move}, M.Fits A → (M.towards m').Parallel (f M) work work') (hquiet : Quiet work) :
    WorkLike A w w' (fun a b => ∀ {M : Move}, M.Fits A → b = f M a) (work m) (work' m') := by
  obtain ⟨M₀, hM₀⟩ := h.describes.exists_fits
  have hall {M : Move} (hM : M.Fits A) : work' m' = (M.towards m').result (f M) (work m) := by
    have hwork := hpar hM m
    rwa [← h.moved hM] at hwork
  have hlike {n n' : Machine W} (hprogram : n.program = m.program) (hwidth : n.options.placeholderWidth = m.options.placeholderWidth)
      (houtput : n.output = m.output) (hn : ∀ {M : Move}, M.Fits A → n' = (M.towards m').machine n) :
      Like A w w' n n' := by
    have hprogram' : n'.program = m'.program := by rw [hn hM₀]; rfl
    have houtput' : n'.output = m'.output := by rw [hn hM₀]; rfl
    have hwidth' : n'.options.placeholderWidth = m'.options.placeholderWidth := by rw [hn hM₀]; rfl
    refine ⟨?_, hwidth.trans h.width, hwidth'.trans h.width', ?_, ?_, fun {M} hM => ?_⟩
    · rw [hprogram, hprogram']
      exact h.describes
    · rw [houtput, houtput']
      exact h.text
    · rw [houtput, houtput']
      exact h.broken
    · have htowards : M.towards n' = M.towards m' := by
        simp only [Move.towards, hprogram', houtput', hwidth']
      rw [htowards]
      exact hn hM
  obtain ⟨hprogram, hwidth, houtput⟩ := hquiet m
  have hsame {M : Move} (hM : M.Fits A) :
      (M₀.towards m').result (f M₀) (work m) = (M.towards m').result (f M) (work m) :=
    (hall hM₀).symm.trans (hall hM)
  rw [hall hM₀]
  cases hwork : work m with
  | ok a n =>
    rw [hwork] at hprogram hwidth houtput hsame
    refine .ok (hlike hprogram hwidth houtput fun hM => ?_) fun hM => ?_
    · injection hsame hM
    · injection hsame hM
  | error e n =>
    rw [hwork] at hprogram hwidth houtput hsame
    refine .error e (hlike hprogram hwidth houtput fun hM => ?_)
    injection hsame hM

theorem Like.change (h : Like A w w' m m') {g k : Machine W → Machine W}
    (hpar : ∀ {M : Move}, M.Fits A → ∀ n, k ((M.towards m').machine n) = (M.towards m').machine (g n))
    (hquiet : ∀ n, (g n).program = n.program
      ∧ (g n).options.placeholderWidth = n.options.placeholderWidth ∧ (g n).output = n.output) :
    Like A w w' (g m) (k m') := by
  have hmodify {M : Move} (hM : M.Fits A) : (M.towards m').Parallel (W := W) (fun u => u) (modify g) (modify k) :=
    parallel_modify (hpar hM)
  have hwork := h.work (f := fun _ u => u) hmodify hquiet
  cases hwork with
  | ok hlike _ => exact hlike

/-- Machines that are alike are one another over other code. -/
theorem Like.exists_move (h : Like A w w' m m') : ∃ M : Move, M.Fits A ∧ m' = M.machine m :=
  let ⟨M, hM⟩ := h.describes.exists_fits
  ⟨M.towards m', hM.towards m', h.moved hM⟩

end Machine

end ScriptEngine
