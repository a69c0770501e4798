import ScriptEngine.Proofs.Machine.Twins
/-!
Single instructions over two programs.

A cursor is at an item of a unit, or at its start. An instruction that two machines carry out at the same
item does the same on both, and goes on at the same item (`Like.advance`).
-/

namespace ScriptEngine

open Code (Atlas Sheet Op Item Decoded)

/-! ## Cursors -/

/-- The cursor at a place of a unit. -/
def Code.Sheet.cursor (s : Sheet) (pos : Nat) (previous : Op) : Cursor :=
  ⟨s.code, s.start, s.place 0, pos, previous⟩

/-- Cursors at the same item, or at the start of the same unit. -/
inductive Cursor.Like (A : Atlas) : Cursor → Cursor → Prop
  | start {k : Nat} {s : Sheet} (hs : A[k]? = some s) (previous : Op) :
    Cursor.Like A (s.cursor 0 previous) (s.swap.cursor 0 previous)
  | item {k i : Nat} {s : Sheet} (hs : A[k]? = some s) (hi : i < s.items.length) (previous : Op) :
    Cursor.Like A (s.cursor (s.place i) previous) (s.swap.cursor (s.place' i) previous)

theorem Cursor.Like.mono {A B : Atlas} {c c' : Cursor} (h : Cursor.Like A c c') (hle : A <+: B) :
    Cursor.Like B c c' := by
  cases h with
  | start hs previous => exact .start (Atlas.getElem?_mono hle hs) previous
  | item hs hi previous => exact .item (Atlas.getElem?_mono hle hs) hi previous

namespace Code.Atlas

variable {A : Atlas} {p p' : Program} {k l i j : Nat} {s t : Sheet}

theorem getElem?_swap (hs : A[k]? = some s) : A.swap[k]? = some s.swap := by
  simp [swap, hs]

theorem Describes.cursor_eq (h : A.Describes p p') (hs : A[k]? = some s) {part : Part}
    (hpart : p.parts[k]? = some part) (pos : Nat) (previous : Op) :
    (⟨part.data, part.start, part.codeStart, pos, previous⟩ : Cursor) = s.cursor pos previous := by
  obtain ⟨a, _, ha, _, hd⟩ := h.sheet hs
  rw [hpart] at ha
  cases ha
  rw [Sheet.cursor, hd.code, hd.start, hd.holds.first]

theorem Describes.load (h : A.Describes p p') (hs : A[k]? = some s) (hi : i < s.items.length) (previous : Op) :
    Cursor.load p (s.offset i) previous = .ok (s.cursor (s.place i) previous) := by
  obtain ⟨part, _, hpart, _, hd⟩ := h.sheet hs
  have hpos : s.offset i - part.start = s.place i := by
    rw [hd.start, Sheet.offset, Nat.add_sub_cancel_left]
  simp only [Cursor.load, h.partAt? hs hi hpart, hpos, h.cursor_eq hs hpart]

theorem Describes.load_start (h : A.Describes p p') (hs : A[k]? = some s) (previous : Op) :
    Cursor.load p s.start previous = .ok (s.cursor 0 previous) := by
  obtain ⟨part, _, hpart, _, hd⟩ := h.sheet hs
  have hcovers : part.covers s.start = true := by
    have hsize := hd.holds.stands.place_lt_size hd.closed.length_pos
    simp only [Part.covers, Part.stop, hd.start, Bool.and_eq_true, decide_eq_true_eq]
    omega
  have hpos : s.start - part.start = 0 := by rw [hd.start, Nat.sub_self]
  simp only [Cursor.load, h.endToEnd.partAt? hpart hcovers, hpos, h.cursor_eq hs hpart]

/-- Going to an item ends at its place, from wherever. -/
theorem Describes.goTo (h : A.Describes p p') (hs : A[k]? = some s) (ht : A[l]? = some t)
    (hj : j < t.items.length) (pos : Nat) (before previous : Op) :
    (s.cursor pos before).goTo p (t.offset j) previous = .ok (t.cursor (t.place j) previous) := by
  obtain ⟨a, _, ha, _, hda⟩ := h.sheet hs
  obtain ⟨b, _, hb, _, hdb⟩ := h.sheet ht
  unfold Cursor.goTo
  split
  · rename_i hinside
    have hcovers : a.covers (t.offset j) = true := by
      rw [← hinside, Part.covers, Part.stop, hda.start, hda.code]
      rfl
    have hkl := h.endToEnd.eq_of_covers ha hb hcovers (hdb.covers hj)
    subst hkl
    rw [hs] at ht
    cases ht
    simp only [Sheet.cursor, Sheet.offset, Nat.add_sub_cancel_left]
  · exact h.load ht hj previous

theorem Describes.goTo_known (h : A.Describes p p') (hs : A[k]? = some s) {o o' : Nat} (hknown : A.Known o o')
    (pos pos' : Nat) (before previous : Op) :
    ∃ c c', (s.cursor pos before).goTo p o previous = .ok c
      ∧ (s.swap.cursor pos' before).goTo p' o' previous = .ok c' ∧ Cursor.Like A c c' := by
  obtain ⟨l, t, j, ht, hj, rfl, rfl⟩ := hknown
  exact ⟨_, _, h.goTo hs ht hj pos before previous,
    h.swap.goTo (getElem?_swap hs) (getElem?_swap ht) hj pos' before previous, .item ht hj previous⟩

end Code.Atlas

/-! ## Where a run goes on -/

/-- The place in the second program of what is at a place in the first one; anywhere for a place that no
item has. -/
noncomputable def Code.Sheet.across (s : Sheet) (anywhere pos : Nat) : Nat :=
  open Classical in if h : ∃ i < s.items.length, s.place i = pos then s.place' h.choose else anywhere

namespace Code.Sheet

variable {s : Sheet} {part part' : Part}

theorem Describes.across_place (h : s.Describes part part') {i : Nat} (hi : i < s.items.length)
    (anywhere : Nat) : s.across anywhere (s.place i) = s.place' i := by
  have hex : ∃ j < s.items.length, s.place j = s.place i := ⟨i, hi, rfl⟩
  have hj := hex.choose_spec
  rw [across, dif_pos hex]
  exact congrArg s.place' (h.holds.stands.place_inj (Nat.le_of_lt hj.1) (Nat.le_of_lt hi) hj.2)

theorem exists_of_across {pos pos' : Nat} (hall : ∀ anywhere, pos' = s.across anywhere pos) :
    ∃ i < s.items.length, s.place i = pos ∧ s.place' i = pos' := by
  by_cases hex : ∃ i < s.items.length, s.place i = pos
  · have hi := hex.choose_spec
    refine ⟨hex.choose, hi.1, hi.2, ?_⟩
    rw [hall 0, across, dif_pos hex]
  · have h0 := hall pos'.succ
    rw [across, dif_neg hex] at h0
    omega

end Code.Sheet

/-- Flows that go on at the same item. -/
inductive Flow.Like (A : Atlas) (s : Sheet) : Flow → Flow → Prop
  | goOn {i : Nat} (hi : i < s.items.length) : Flow.Like A s (.goOn (s.place i)) (.goOn (s.place' i))
  | jump {o o' : Nat} (h : A.Known o o') : Flow.Like A s (.jump o) (.jump o')
  | finish {v v' : Value} (h : ValueLike A v v') : Flow.Like A s (.finish v) (.finish v')
  | host {callee callee' receiver receiver' : Value} {args args' : List Value} {slot i : Nat}
    (hcallee : ValueLike A callee callee') (hreceiver : ValueLike A receiver receiver')
    (hargs : List.Forall₂ (ValueLike A) args args') (hi : i < s.items.length) :
    Flow.Like A s (.host callee receiver args slot (s.place i)) (.host callee' receiver' args' slot (s.place' i))

theorem Code.Atlas.Describes.valuesLike {A : Atlas} {p p' : Code.Program} (h : A.Describes p p')
    {vs vs' : List Value} (hall : ∀ {M : Move}, M.Fits A → vs' = vs.map M.value) :
    List.Forall₂ (ValueLike A) vs vs' := by
  obtain ⟨M₀, hM₀⟩ := h.exists_fits
  have hlength : vs.length = vs'.length := by rw [hall hM₀, List.length_map]
  refine List.forall₂_iff_get.mpr ⟨hlength, fun i hi hi' => h.valueLike fun {M} hM => ?_⟩
  simp [hall hM]

theorem ValueLike.map_eq {A : Atlas} {vs vs' : List Value} (h : List.Forall₂ (ValueLike A) vs vs') {M : Move}
    (hM : M.Fits A) : vs' = vs.map M.value := by
  induction h with
  | nil => rfl
  | cons hv _ ih => rw [List.map_cons, ← ih, ← hv.eq hM]

namespace Machine

variable {W α β : Type} {A : Atlas} {w w' k i : Nat} {m m' : Machine W} {s : Sheet}

theorem Like.sheet (h : Like A w w' m m') (hs : A[k]? = some s) :
    ∃ part part', s.Describes part part' :=
  let ⟨part, part', _, _, hd⟩ := h.describes.sheet hs
  ⟨part, part', hd⟩

/-- Work that ends in a flow, over other code, ends in the same flow. -/
theorem Like.flow (h : Like A w w' m m') (offset : Move → Nat → Nat) {work work' : Work W Flow}
    (hpar : ∀ {M : Move} (anywhere : Nat), M.Fits A →
      (M.towards m').Parallel (M.flow (offset M) (s.across anywhere)) work work') (hquiet : Quiet work)
    (hjump : ∀ {o o' : Nat} {n : Machine W}, work m = .ok (.jump o) n →
      (∀ M : Move, M.Fits A → o' = offset M o) → A.Known o o') :
    WorkLike A w w' (Flow.Like A s) (work m) (work' m') := by
  have hwork (anywhere : Nat) := h.work (hpar anywhere) hquiet
  revert hwork hjump
  generalize work m = r
  generalize work' m' = r'
  intro hjump hwork
  cases hwork 0 with
  | error e hlike => exact .error e hlike
  | @ok flow flow' n n' hlike _ =>
    refine .ok hlike ?_
    have hall {M : Move} (anywhere : Nat) (hM : M.Fits A) :
        flow' = M.flow (offset M) (s.across anywhere) flow := by
      cases hwork anywhere with
      | ok _ hflow => exact hflow hM
    obtain ⟨M₀, hM₀⟩ := h.describes.exists_fits
    cases flow with
    | goOn pos =>
      obtain rfl := hall 0 hM₀
      obtain ⟨i, hi, rfl, hi'⟩ := Code.Sheet.exists_of_across (s := s) fun anywhere =>
        Flow.goOn.inj (hall anywhere hM₀)
      rw [Move.flow, ← hi']
      exact .goOn hi
    | jump o =>
      obtain rfl := hall 0 hM₀
      exact .jump (hjump rfl fun M hM => Flow.jump.inj (hall 0 hM))
    | finish v =>
      obtain rfl := hall 0 hM₀
      exact .finish (h.describes.valueLike fun hM => Flow.finish.inj (hall 0 hM))
    | host callee receiver args slot pos =>
      obtain rfl := hall 0 hM₀
      have hinj {M : Move} (anywhere : Nat) (hM : M.Fits A) := Flow.host.inj (hall anywhere hM)
      obtain ⟨i, hi, rfl, hi'⟩ := Code.Sheet.exists_of_across (s := s) fun anywhere =>
        (hinj anywhere hM₀).2.2.2.2
      rw [Move.flow, ← hi']
      exact .host (h.describes.valueLike fun hM => (hinj 0 hM).1)
        (h.describes.valueLike fun hM => (hinj 0 hM).2.1)
        (h.describes.valuesLike fun hM => (hinj 0 hM).2.2.1) hi

/-! ## Instructions -/

theorem callPending_jump {site pos o : Nat} {n : Machine W} (h : callPending site pos m = .ok (.jump o) n) :
    o < payloadSize := by
  obtain ⟨call, m₁, -, h⟩ := bind_eq_ok.1 h
  obtain ⟨callee, m₂, -, h⟩ := bind_eq_ok.1 h
  cases callee with
  | function start =>
    obtain ⟨_, m₃, -, h⟩ := bind_eq_ok.1 h
    cases h
    exact start.isLt
  | native id =>
    obtain ⟨_, m₃, -, h⟩ := bind_eq_ok.1 h
    cases h
  | signature id =>
    obtain ⟨_, m₃, -, h⟩ := bind_eq_ok.1 h
    cases h
  | _ => cases h

/-- Behind a call instruction is an item. -/
theorem Like.known_behind (h : Like A w w' m m') {o o' : Nat}
    (hall : ∀ M : Move, M.Fits A → o' = M.site (o - 1) + 1) : A.Known o o' := by
  have hcall : A.KnownCall (o - 1) (o' - 1) := h.describes.known_of_site fun M hM => by
    rw [hall M hM, Nat.add_sub_cancel]
  obtain ⟨M, hM⟩ := h.describes.exists_fits
  have hpos := (h.describes.known_bounds hcall.known).1
  have hpos' := hall M hM
  obtain ⟨l, t, j, ht, hitem, ho, ho'⟩ := hcall
  obtain ⟨part, part', hd⟩ := h.sheet ht
  have hbehind := hd.holds.stands.place_behind_call hitem
  have hbehind' := hd.holds'.stands.place_behind_call hitem
  refine ⟨l, t, j + 1, ht, hd.closed.next_lt hitem (by decide), ?_, ?_⟩
  · unfold Sheet.offset at *
    omega
  · unfold Sheet.offset' at *
    omega

/-- What goes on at known targets only, if it jumps at all. -/
theorem Like.flow_target (h : Like A w w' m m') {work work' : Work W Flow}
    (hpar : ∀ {M : Move} (anywhere : Nat), M.Fits A →
      (M.towards m').Parallel (M.flow M.target (s.across anywhere)) work work') (hquiet : Quiet work) :
    WorkLike A w w' (Flow.Like A s) (work m) (work' m') :=
  h.flow Move.target hpar hquiet fun _ hall => h.describes.known_of_target hall

/-- Work behind which a run goes on at the next item. -/
theorem Like.flow_next (h : Like A w w' m m') (hs : A[k]? = some s) (hi : i < s.items.length)
    {work work' : Work W Unit}
    (hpar : ∀ {M : Move}, M.Fits A → (M.towards m').Parallel (fun u => u) work work') (hquiet : Quiet work) :
    WorkLike A w w' (Flow.Like A s) ((do work; return Flow.goOn (s.place i)) m)
      ((do work'; return Flow.goOn (s.place' i)) m') := by
  obtain ⟨part, part', hd⟩ := h.sheet hs
  refine h.flow_target (fun {M} anywhere hM => parallel_bind (hpar hM) fun _ => ?_)
    (quiet_bind hquiet fun _ => quiet_pure _)
  have hpure := parallel_pure (W := W) (M := M.towards m') (M.flow M.target (s.across anywhere))
    (Flow.goOn (s.place i))
  rwa [Move.flow, hd.across_place hi] at hpure

theorem Like.carryOut_plain (h : Like A w w' m m') (hs : A[k]? = some s) {ins : Code.Instr}
    {complete : ins.isPlain = true} (hitem : s.items[i]? = some (.plain ins complete)) (env : Embedding W)
    (previous : Op) (firstEnd firstEnd' : Nat) :
    WorkLike A w w' (Flow.Like A s)
      (carryOut env (s.cursor (s.place i) previous) ins firstEnd (s.place (i + 1)) m)
      (carryOut env (s.swap.cursor (s.place' i) previous) ins firstEnd' (s.place' (i + 1)) m') := by
  obtain ⟨part, part', hd⟩ := h.sheet hs
  have hquiet := quiet_carryOut env (s.cursor (s.place i) previous) ins firstEnd (s.place (i + 1))
  by_cases hexit : ins.op = .exit
  · cases ins <;> cases hexit
    exact h.flow_target (fun anywhere hM => parallel_bind parallel_pop fun v => parallel_pure _ (Flow.finish v))
      hquiet
  · have hnext := hd.closed.next_lt hitem hexit
    have hacross (anywhere : Nat) := hd.across_place hnext anywhere
    cases hstraight : ins.isStraight with
    | true =>
      have hprevious : (s.swap.cursor (s.place' i) previous).previous
          = (s.cursor (s.place i) previous).previous := rfl
      refine h.flow_target (fun {M} anywhere hM => ?_) hquiet
      rw [← hacross anywhere]
      exact parallel_carryOut env hprevious hstraight M.target (s.across anywhere) _ _ _
    | false =>
      cases ins with
      | call =>
        refine h.flow Move.entry (fun {M} anywhere hM => ?_) hquiet fun {_ o' _} hjump hall => ?_
        · have hsite : M.site (s.offset i) = s.offset' i := hM.site ⟨k, s, i, hs, hitem, rfl, rfl⟩
          have hpar := parallel_callPending (W := W) (M := M.towards m') (s.offset i) (s.place (i + 1))
            (s.across anywhere)
          rw [hacross, show (M.towards m').site (s.offset i) = s.offset' i from hsite] at hpar
          exact hpar
        · let start : Payload := ⟨_, callPending_jump hjump⟩
          have hentry (M : Move) (hM : M.Fits A) : o' = M.entry start.val := hall M hM
          exact h.describes.known_of_entry hentry
      | «return» =>
        refine h.flow (fun M o => M.site (o - 1) + 1)
          (fun anywhere hM => parallel_returnFromCall _) hquiet fun _ hall => ?_
        exact h.known_behind hall
      | «break» => exact h.flow_target (fun anywhere hM => parallel_breakLoop _) hquiet
      | «continue» => exact h.flow_target (fun anywhere hM => parallel_continueLoop _) hquiet
      | header =>
        have hfirst := hd.across_place hd.closed.length_pos
        refine h.flow_target (fun {M} anywhere hM => ?_) hquiet
        have hpure := parallel_pure (W := W) (M := M.towards m') (M.flow M.target (s.across anywhere))
          (Flow.goOn (s.place 0))
        rwa [Move.flow, hfirst] at hpure
      | jmp | jmpTrue | jmpFalse | jmpNeutralTrue | jmpNeutralFalse | loop | pushFunc => cases complete
      | _ => cases hstraight

theorem functionBack_eq {offset back : Nat} (start : Payload) (h : start.val + back = offset) :
    functionBack offset back = .ok (.function start) := by
  have hword : (UInt64.ofNat start.val).toNat = start.val := by
    rw [UInt64.toNat_ofNat']
    exact Nat.mod_eq_of_lt (Nat.lt_trans start.isLt (by decide))
  have hstart : offset - back = start.val := by omega
  have hpayload : Payload.ofWord? (UInt64.ofNat start.val) = .ok start := by
    rw [Payload.ofWord?, dif_pos (by rw [hword]; exact start.isLt)]
    exact congrArg Except.ok (Fin.ext hword)
  rw [functionBack, if_pos (by omega), hstart, Value.ofFunction?, hpayload]
  rfl

/-- What two machines do at the same item. -/
def ItemLike (A : Atlas) (w w' : Nat) (env : Embedding W) (m m' : Machine W) (s : Sheet) (i : Nat)
    (previous : Op) (d d' : Decoded) : Prop :=
  ∃ ins ins' firstEnd firstEnd' next next', d = .instr ins firstEnd next ∧ d' = .instr ins' firstEnd' next'
    ∧ ins'.op = ins.op
    ∧ WorkLike A w w' (Flow.Like A s) (carryOut env (s.cursor (s.place i) previous) ins firstEnd next m)
      (carryOut env (s.swap.cursor (s.place' i) previous) ins' firstEnd' next' m')

theorem Like.carryOut_jump (h : Like A w w' m m') (hs : A[k]? = some s) {j : Code.Jump} {ahead : Nat}
    (hitem : s.items[i]? = some (.jump j ahead)) (env : Embedding W) (previous : Op) :
    ItemLike A w w' env m m' s i previous (Decoded.read s.code (s.place i)) (Decoded.read s.code' (s.place' i)) := by
  obtain ⟨part, part', hd⟩ := h.sheet hs
  obtain ⟨distance, hread, hplace⟩ := hd.holds.stands.read hitem
  obtain ⟨distance', hread', hplace'⟩ := hd.holds'.stands.read hitem
  rw [hd.code] at hread
  rw [hd.code'] at hread'
  have hwithin : i + 1 + ahead ≤ s.items.length - 1 := hd.closed.within hitem
  have hpos := hd.closed.length_pos
  have hnext (anywhere : Nat) := hd.across_place (i := i + 1) (by omega) anywhere
  have htarget (anywhere : Nat) := hd.across_place (i := i + 1 + ahead) (by omega) anywhere
  have hdistance (anywhere : Nat) : s.across anywhere (s.place (i + 1) + distance)
      = s.across anywhere (s.place (i + 1)) + distance' := by
    rw [hplace, htarget, hnext, hplace']
  refine ⟨_, _, _, _, _, _, hread, hread', by rw [Code.Jump.op_instr, Code.Jump.op_instr], ?_⟩
  have hquiet := quiet_carryOut env (s.cursor (s.place i) previous) (j.instr distance) (s.place (i + 1))
    (s.place (i + 1))
  refine h.flow_target (fun {M} anywhere hM => ?_) hquiet
  rw [← hnext anywhere]
  cases j with
  | always =>
    have hpure := parallel_pure (W := W) (M := M.towards m') (M.flow M.target (s.across anywhere))
      (Flow.goOn (s.place (i + 1) + distance))
    rwa [Move.flow, hdistance] at hpure
  | onFalse => exact parallel_jumpIf M.target (s.across anywhere) false (hdistance anywhere)
  | onTrueKept => exact parallel_jumpKeeping M.target (s.across anywhere) true (hdistance anywhere)
  | onFalseKept => exact parallel_jumpKeeping M.target (s.across anywhere) false (hdistance anywhere)

theorem Like.carryOut_loop (h : Like A w w' m m') (hs : A[k]? = some s) {exit again : Nat}
    (hitem : s.items[i]? = some (.loop exit again)) (env : Embedding W) (previous : Op) :
    ItemLike A w w' env m m' s i previous (Decoded.read s.code (s.place i)) (Decoded.read s.code' (s.place' i)) := by
  obtain ⟨part, part', hd⟩ := h.sheet hs
  obtain ⟨b, c, firstEnd, hread, hexit, hagain⟩ := hd.holds.stands.read hitem
  obtain ⟨b', c', firstEnd', hread', hexit', hagain'⟩ := hd.holds'.stands.read hitem
  rw [hd.code] at hread
  rw [hd.code'] at hread'
  have hwithin : i + 1 + exit ≤ s.items.length - 1 ∧ i + 1 + again ≤ s.items.length - 1 :=
    hd.closed.within hitem
  have hpos := hd.closed.length_pos
  have hknown {M : Move} (hM : M.Fits A) {j : Nat} (hj : j < s.items.length) :
      M.target (s.start + s.place j) = s.start' + s.place' j :=
    hM.target ⟨k, s, j, hs, hj, rfl, rfl⟩
  refine ⟨_, _, _, _, _, _, hread, hread', rfl, h.flow_next hs (by omega) (fun {M} hM => ?_) ?_⟩
  · have hpar := parallel_openLoop (W := W) (M := M.towards m') (s.start + s.place (i + 1 + exit))
      (s.start + s.place (i + 1 + again))
    rw [show (M.towards m').target (s.start + s.place (i + 1 + exit)) = _ from hknown hM (by omega),
      show (M.towards m').target (s.start + s.place (i + 1 + again)) = _ from hknown hM (by omega)] at hpar
    show (M.towards m').Parallel (fun u => u) (openLoop (s.start + firstEnd + b) (s.start + s.place (i + 1) + c))
      (openLoop (s.start' + firstEnd' + b') (s.start' + s.place' (i + 1) + c'))
    rw [show s.start + firstEnd + b = s.start + s.place (i + 1 + exit) by omega,
      show s.start + s.place (i + 1) + c = s.start + s.place (i + 1 + again) by omega,
      show s.start' + firstEnd' + b' = s.start' + s.place' (i + 1 + exit) by omega,
      show s.start' + s.place' (i + 1) + c' = s.start' + s.place' (i + 1 + again) by omega]
    exact hpar
  · exact quiet_of_parallel fun n => parallel_openLoop _ _

theorem Like.carryOut_func (h : Like A w w' m m') (hs : A[k]? = some s) {behind : Nat}
    (hitem : s.items[i]? = some (.func behind)) (env : Embedding W) (previous : Op) :
    ItemLike A w w' env m m' s i previous (Decoded.read s.code (s.place i)) (Decoded.read s.code' (s.place' i)) := by
  obtain ⟨part, part', hd⟩ := h.sheet hs
  obtain ⟨back, firstEnd, hread, hback⟩ := hd.holds.stands.read hitem
  obtain ⟨back', firstEnd', hread', hback'⟩ := hd.holds'.stands.read hitem
  rw [hd.code] at hread
  rw [hd.code'] at hread'
  have hi := (List.getElem?_eq_some_iff.mp hitem).1
  have hknown : A.Known (s.offset (i - behind)) (s.offset' (i - behind)) :=
    ⟨k, s, i - behind, hs, by omega, rfl, rfl⟩
  let start : Payload := ⟨_, (h.describes.known_bounds hknown).2⟩
  let start' : Payload := ⟨_, (h.describes.known_bounds' hknown).2⟩
  have hlike : ValueLike A (.function start) (.function start') := .function hknown
  have hfunction : functionBack (s.offset i) back = .ok (.function start) := functionBack_eq start (by
    show s.start + s.place (i - behind) + back = s.start + s.place i
    omega)
  have hfunction' : functionBack (s.offset' i) back' = .ok (.function start') := functionBack_eq start' (by
    show s.start' + s.place' (i - behind) + back' = s.start' + s.place' i
    omega)
  have hquiet (v : Value) : Quiet (push v : Work W Unit) :=
    quiet_of_parallel (f := fun _ u => u) fun n => by simpa using parallel_push (M := Move.stay n) v
  have hpush {M : Move} (hM : M.Fits A) : (M.towards m').Parallel (W := W) (fun u => u) (push (.function start))
      (push (.function start')) := by
    rw [hlike.eq hM]
    exact parallel_push (M := M.towards m') _
  refine ⟨_, _, _, _, _, _, hread, hread', rfl, ?_⟩
  simp only [carryOut]
  rw [show (s.cursor (s.place i) previous).offset = s.offset i from rfl, hfunction,
    show (s.swap.cursor (s.place' i) previous).offset = s.offset' i from rfl, hfunction']
  exact h.flow_next hs (hd.closed.next_lt hitem fun hop => by cases hop) hpush (hquiet _)

/-- At the same item two machines do the same. -/
theorem Like.carryOut (h : Like A w w' m m') (hs : A[k]? = some s) (hi : i < s.items.length)
    (env : Embedding W) (previous : Op) :
    ItemLike A w w' env m m' s i previous (Decoded.read s.code (s.place i)) (Decoded.read s.code' (s.place' i)) := by
  have hitem := List.getElem?_eq_getElem hi
  revert hitem
  generalize s.items[i] = item
  intro hitem
  cases item with
  | plain ins complete =>
    obtain ⟨part, part', hd⟩ := h.sheet hs
    obtain ⟨firstEnd, hread⟩ := hd.holds.stands.read hitem
    obtain ⟨firstEnd', hread'⟩ := hd.holds'.stands.read hitem
    rw [hd.code] at hread
    rw [hd.code'] at hread'
    exact ⟨_, _, _, _, _, _, hread, hread', rfl, h.carryOut_plain hs hitem env previous _ _⟩
  | jump j ahead => exact h.carryOut_jump hs hitem env previous
  | loop exit again => exact h.carryOut_loop hs hitem env previous
  | func behind => exact h.carryOut_func hs hitem env previous

/-! ## Steps -/

/-- Steps after which two runs go on at the same item. -/
inductive Step.Like (A : Atlas) : Step → Step → Prop
  | goOn {c c' : Cursor} (h : Cursor.Like A c c') : Step.Like A (.goOn c) (.goOn c')
  | finish {v v' : Value} (h : ValueLike A v v') : Step.Like A (.finish v) (.finish v')
  | host {callee callee' receiver receiver' : Value} {args args' : List Value} {slot : Nat} {c c' : Cursor}
    (hcallee : ValueLike A callee callee') (hreceiver : ValueLike A receiver receiver')
    (hargs : List.Forall₂ (ValueLike A) args args') (hc : Cursor.Like A c c') :
    Step.Like A (.host callee receiver args slot c) (.host callee' receiver' args' slot c')

/-- Finds the cursor where a flow goes on. -/
def settle (c : Cursor) (op : Op) : Flow → Work W Step
  | .goOn pos => return .goOn { c with pos := pos, previous := op }
  | .jump offset => do
    let c ← inspect fun m => c.goTo m.program offset op
    return .goOn c
  | .finish v => return .finish v
  | .host callee receiver args slot pos =>
    return .host callee receiver args slot { c with pos := pos, previous := op }

theorem advance_eq (env : Embedding W) {c : Cursor} {ins : Code.Instr} {firstEnd next : Nat}
    (hread : Decoded.read c.code c.pos = .instr ins firstEnd next) :
    advance env c = carryOut env c ins firstEnd next >>= settle c ins.op := by
  unfold advance
  rw [hread]
  rfl

theorem Like.settle (h : Like A w w' m m') (hs : A[k]? = some s) {flow flow' : Flow}
    (hflow : Flow.Like A s flow flow') (pos pos' : Nat) (previous op : Op) :
    WorkLike A w w' (Step.Like A) (settle (s.cursor pos previous) op flow m)
      (settle (s.swap.cursor pos' previous) op flow' m') := by
  cases hflow with
  | goOn hi => exact .ok h (.goOn (.item hs hi op))
  | jump hknown =>
    obtain ⟨c, c', hc, hc', hlike⟩ := h.describes.goTo_known hs hknown pos pos' previous op
    simp only [Machine.settle, bind_eq, inspect, hc, hc']
    exact .ok h (.goOn hlike)
  | finish hv => exact .ok h (.finish hv)
  | host hcallee hreceiver hargs hi => exact .ok h (.host hcallee hreceiver hargs (.item hs hi op))

/-- Two machines at the same item take the same step. What does more than to go on is at an item. -/
theorem Like.advance (h : Like A w w' m m') {c c' : Cursor} (hc : Cursor.Like A c c') (env : Embedding W) :
    WorkLike A w w' (Step.Like A) (advance env c m) (advance env c' m')
      ∧ ((∀ next n, Machine.advance env c m ≠ .ok (.goOn next) n) → A.Known c.offset c'.offset) := by
  cases hc with
  | @start k s hs previous =>
    obtain ⟨part, part', hd⟩ := h.sheet hs
    have hread : Decoded.read (s.cursor 0 previous).code (s.cursor 0 previous).pos = .instr .header 1 1 := by
      rw [← hd.holds.header, hd.code]
      rfl
    have hread' : Decoded.read (s.swap.cursor 0 previous).code (s.swap.cursor 0 previous).pos
        = .instr .header 1 1 := by
      rw [← hd.holds'.header, hd.code']
      rfl
    rw [advance_eq env hread, advance_eq env hread']
    exact ⟨.ok h (.goOn (.item hs hd.closed.length_pos .header)), fun hother => absurd rfl (hother _ _)⟩
  | @item k i s hs hi previous =>
    refine ⟨?_, fun _ => ⟨k, s, i, hs, hi, rfl, rfl⟩⟩
    obtain ⟨ins, ins', firstEnd, firstEnd', next, next', hread, hread', hop, hwork⟩ :=
      h.carryOut hs hi env previous
    rw [advance_eq env (c := s.cursor (s.place i) previous) hread,
      advance_eq env (c := s.swap.cursor (s.place' i) previous) hread', bind_eq, bind_eq, hop]
    revert hwork
    generalize Machine.carryOut env (s.cursor (s.place i) previous) ins firstEnd next m = r
    generalize Machine.carryOut env (s.swap.cursor (s.place' i) previous) ins' firstEnd' next' m' = r'
    intro hwork
    cases hwork with
    | ok hlike hflow => exact hlike.settle hs hflow _ _ previous ins.op
    | error e hlike => exact .error e hlike

end Machine

end ScriptEngine
