import ScriptEngine.Proofs.Heap.Pairing
import ScriptEngine.Proofs.Machine.Names
/-!
Look-ups along delegation.

An object delegates to the one that it has under the delegation name, if that is an object or an array. The chain of
an object (`Chain`) follows delegation until it ends or comes back to an object that is in the chain already. There is
always exactly one (`exists_chain`, `Chain.unique`), because a heap has finitely many objects, and a look-up asks its
objects in order (`Chain.getFrom_eq`): the answer is the value of the first one that has the name.
-/

namespace ScriptEngine.Heap

/-- The object that an object delegates to. -/
def delegate? (h : Heap) (obj : ObjectId) : Option ObjectId :=
  match h.getOwn obj delegateKey with
  | .ok holder => holder.bind Value.propertyHolder?
  | .error _ => none

/-- The chain of delegation from an object on that stops where it would come to an object of `seen` or of itself. -/
inductive Chain (h : Heap) : List ObjectId → ObjectId → List ObjectId → Prop where
  | stop {seen : List ObjectId} {obj : ObjectId} :
      (∀ next, h.delegate? obj = some next → next ∈ obj :: seen) → Chain h seen obj [obj]
  | next {seen : List ObjectId} {obj next : ObjectId} {rest : List ObjectId} :
      h.delegate? obj = some next → next ∉ obj :: seen → Chain h (obj :: seen) next rest →
        Chain h seen obj (obj :: rest)

variable {h : Heap} {obj : ObjectId} {seen path : List ObjectId}

/-- Only an object that is there delegates. -/
theorem isLive_of_delegate? {next : ObjectId} (hnext : h.delegate? obj = some next) : h.IsLive obj := by
  cases hcell : h.objects.get? obj.cell with
  | some cell => exact ⟨cell, hcell⟩
  | none =>
    unfold delegate? at hnext
    rw [getOwn_of_dead hcell] at hnext
    cases hnext

/-! ## Chains -/

theorem Chain.exists_cons (hchain : h.Chain seen obj path) : ∃ rest, path = obj :: rest := by
  cases hchain with
  | stop => exact ⟨[], rfl⟩
  | next => exact ⟨_, rfl⟩

/-- A chain goes through no object twice, and through none of those seen. -/
theorem Chain.nodup (hchain : h.Chain seen obj path) (hfresh : obj ∉ seen) : path.Nodup ∧ ∀ o ∈ path, o ∉ seen := by
  induction hchain with
  | stop => exact ⟨List.nodup_singleton _, fun o ho => List.mem_singleton.1 ho ▸ hfresh⟩
  | next hnext hnew _ ih =>
    obtain ⟨hnodup, hout⟩ := ih hnew
    refine ⟨List.nodup_cons.2 ⟨fun hmem => hout _ hmem List.mem_cons_self, hnodup⟩, fun o ho => ?_⟩
    rcases List.mem_cons.1 ho with rfl | ho
    · exact hfresh
    · exact fun hmem => hout o ho (List.mem_cons_of_mem _ hmem)

/-- There are not two chains. -/
theorem Chain.unique {path' : List ObjectId} (hchain : h.Chain seen obj path) (hchain' : h.Chain seen obj path') :
    path = path' := by
  induction hchain generalizing path' with
  | stop hstop =>
    cases hchain' with
    | stop => rfl
    | next hnext hnew => exact absurd (hstop _ hnext) hnew
  | next hnext hnew _ ih =>
    cases hchain' with
    | stop hstop => exact absurd (hstop _ hnext) hnew
    | next hnext' _ hrest' =>
      rw [hnext] at hnext'
      cases hnext'
      rw [ih hrest']

/-- All objects of a chain but the last are there. -/
theorem Chain.isLive (hchain : h.Chain seen obj path) : ∀ o ∈ path.dropLast, h.IsLive o := by
  induction hchain with
  | stop => exact fun o ho => by cases ho
  | next hnext _ hrest ih =>
    obtain ⟨rest, rfl⟩ := hrest.exists_cons
    intro o ho
    rw [List.dropLast_cons_of_ne_nil (List.cons_ne_nil _ _)] at ho
    rcases List.mem_cons.1 ho with rfl | ho
    · exact isLive_of_delegate? hnext
    · exact ih o ho

/-- In a heap without bad links all of them are there. -/
theorem Chain.isLive_all (hchain : h.Chain seen obj path) (hobj : h.IsLive obj)
    (hlinks : ∀ o next, h.delegate? o = some next → h.IsLive next) : ∀ o ∈ path, h.IsLive o := by
  induction hchain with
  | stop => exact fun o ho => List.mem_singleton.1 ho ▸ hobj
  | next hnext _ _ ih =>
    intro o ho
    rcases List.mem_cons.1 ho with rfl | ho
    · exact hobj
    · exact ih (hlinks _ _ hnext) o ho

/-- The slots of a heap bound how far a chain goes. -/
theorem Chain.length_le (hchain : h.Chain seen obj path) (hnodup : (obj :: seen).Nodup)
    (hseen : ∀ o ∈ seen, h.IsLive o) : path.length + seen.length ≤ h.objects.cells.size + 1 := by
  induction hchain with
  | stop =>
    have := length_le_of_live (List.nodup_cons.1 hnodup).2 hseen
    rw [List.length_singleton]
    omega
  | next hnext hnew _ ih =>
    have := ih (List.nodup_cons.2 ⟨hnew, hnodup⟩) (List.forall_mem_cons.2 ⟨isLive_of_delegate? hnext, hseen⟩)
    rw [List.length_cons] at this ⊢
    omega

/-- There is a chain: as long as it goes on, there are more and more objects seen. -/
theorem exists_chain_of_seen (hnodup : (obj :: seen).Nodup) (hseen : ∀ o ∈ seen, h.IsLive o) {room : Nat}
    (hroom : h.objects.cells.size ≤ room + seen.length) : ∃ path, h.Chain seen obj path := by
  induction room generalizing seen obj with
  | zero =>
    -- All slots are those of objects seen, so that delegation can only come back.
    refine ⟨[obj], .stop fun next hnext => ?_⟩
    have hall := length_le_of_live hnodup (List.forall_mem_cons.2 ⟨isLive_of_delegate? hnext, hseen⟩)
    rw [List.length_cons] at hall
    omega
  | succ room ih =>
    cases hnext : h.delegate? obj with
    | none => exact ⟨[obj], .stop fun next h => by rw [hnext] at h; cases h⟩
    | some next =>
      by_cases hnew : next ∈ obj :: seen
      · exact ⟨[obj], .stop fun next' h => by rw [hnext] at h; cases h; exact hnew⟩
      · have hlength : (obj :: seen).length = seen.length + 1 := rfl
        obtain ⟨rest, hrest⟩ := ih (List.nodup_cons.2 ⟨hnew, hnodup⟩)
          (List.forall_mem_cons.2 ⟨isLive_of_delegate? hnext, hseen⟩) (by omega)
        exact ⟨obj :: rest, .next hnext hnew hrest⟩

theorem exists_chain (h : Heap) (obj : ObjectId) : ∃ path, h.Chain [] obj path :=
  exists_chain_of_seen (List.nodup_singleton obj) (fun _ ho => by cases ho) (Nat.le_add_right h.objects.cells.size 0)

/-! ## Looking up -/

theorem Sound.getOwn_ok (hs : h.Sound) (hobj : h.IsLive obj) (key : List UInt8) :
    ∃ found, h.getOwn obj key = .ok found := by
  obtain ⟨cell, hcell⟩ := hobj
  exact ⟨_, hs.getOwn_eq hcell key⟩

theorem getFrom_of_mem (key : List UInt8) (hmem : obj ∈ seen) (limit : Nat) :
    h.getFrom key seen obj limit = .ok none := by
  cases limit with
  | zero => rfl
  | succ limit =>
    unfold Heap.getFrom
    rw [if_pos (List.contains_iff_mem.2 hmem)]

/-- An object that does not have the name leaves the answer to the one it delegates to. -/
theorem Sound.getFrom_succ (hs : h.Sound) (key : List UInt8) (hfresh : obj ∉ seen) (limit : Nat) :
    h.getFrom key seen obj (limit + 1) = (h.getOwn obj key).bind fun
      | some v => .ok (some v)
      | none =>
        match h.delegate? obj with
        | some next => h.getFrom key (obj :: seen) next limit
        | none => .ok none := by
  have hcontains : seen.contains obj = false := by simpa using hfresh
  rw [Heap.getFrom, hcontains, if_neg Bool.false_ne_true]
  unfold delegate?
  cases hcell : h.objects.get? obj.cell with
  | none =>
    rw [getOwn_of_dead hcell]
    rfl
  | some cell =>
    obtain ⟨holder, hholder⟩ := hs.getOwn_ok ⟨cell, hcell⟩ delegateKey
    obtain ⟨found, hfound⟩ := hs.getOwn_ok ⟨cell, hcell⟩ key
    rw [hholder, hfound]
    cases found with
    | some v => rfl
    | none => cases hnext : holder.bind Value.propertyHolder? <;> simp [Except.bind, hnext]

/-- A look-up asks the objects of the chain, one after the other. -/
theorem Chain.getFrom_eq (hs : h.Sound) (hchain : h.Chain seen obj path) (hfresh : obj ∉ seen) (key : List UInt8)
    {limit : Nat} (hlimit : path.length < limit) :
    h.getFrom key seen obj limit = path.findSomeM? fun o => h.getOwn o key := by
  induction hchain generalizing limit with
  | @stop seen obj hstop =>
    obtain ⟨limit, rfl⟩ : ∃ n, limit = n + 1 := ⟨limit - 1, by omega⟩
    rw [hs.getFrom_succ key hfresh, List.findSomeM?]
    refine congrArg (Except.bind (h.getOwn obj key)) (funext fun found => ?_)
    cases found with
    | some v => rfl
    | none =>
      cases hnext : h.delegate? obj with
      | none => rfl
      | some next => exact getFrom_of_mem key (hstop next hnext) limit
  | @next seen obj next rest hnext hnew _ ih =>
    obtain ⟨limit, rfl⟩ : ∃ n, limit = n + 1 := ⟨limit - 1, by omega⟩
    rw [List.length_cons] at hlimit
    rw [hs.getFrom_succ key hfresh, List.findSomeM?]
    refine congrArg (Except.bind (h.getOwn obj key)) (funext fun found => ?_)
    cases found with
    | some v => rfl
    | none =>
      simp only [hnext]
      exact ih hnew (by omega)

/-- The answer of a look-up, by the chain of the object. -/
structure Nearest (h : Heap) (obj : ObjectId) (key : List UInt8) (path : List ObjectId) : Prop where
  /-- The first object of the chain that has the name answers. -/
  found : ∀ before o behind v, path = before ++ o :: behind → (∀ o' ∈ before, h.getOwn o' key = .ok none) →
    h.getOwn o key = .ok (some v) → h.get obj key = .ok (some v)
  missing : (∀ o ∈ path, h.getOwn o key = .ok none) → h.get obj key = .ok none
  /-- Where no object delegates to one that is gone, there is an answer. -/
  answers : h.IsLive obj → (∀ o next, h.delegate? o = some next → h.IsLive next) → ∃ found, h.get obj key = .ok found
  /-- A bad handle, at which a chain ends, is an error, unless the name was found before. -/
  broken : ∀ before o, path = before ++ [o] → ¬h.IsLive o → (∀ o' ∈ before, h.getOwn o' key = .ok none) →
    h.get obj key = .error .invalidHandle

theorem findSomeM?_append_of_none {α β ε : Type} {f : α → Except ε (Option β)} {before : List α}
    (hnone : ∀ a ∈ before, f a = .ok none) (behind : List α) :
    (before ++ behind).findSomeM? f = behind.findSomeM? f := by
  induction before with
  | nil => rfl
  | cons a before ih =>
    obtain ⟨ha, hbefore⟩ := List.forall_mem_cons.1 hnone
    rw [List.cons_append, List.findSomeM?, ha, ← ih hbefore]
    rfl

theorem exists_findSomeM?_eq_ok {α β ε : Type} {f : α → Except ε (Option β)} {all : List α}
    (hok : ∀ a ∈ all, ∃ found, f a = .ok found) : ∃ found, all.findSomeM? f = .ok found := by
  induction all with
  | nil => exact ⟨none, rfl⟩
  | cons a all ih =>
    obtain ⟨⟨found, hfound⟩, hrest⟩ := List.forall_mem_cons.1 hok
    rw [List.findSomeM?, hfound]
    cases found with
    | some b => exact ⟨some b, rfl⟩
    | none => exact ih hrest

/-- Every object has one chain of delegation, however objects delegate to each other, and a look-up gives the value of
the first object of the chain that has the name. -/
theorem get_nearest (hs : h.Sound) (obj : ObjectId) (key : List UInt8) :
    ∃ path, h.Chain [] obj path ∧ (∀ path', h.Chain [] obj path' → path' = path) ∧ path.Nodup ∧
      (∀ o ∈ path.dropLast, h.IsLive o) ∧ h.Nearest obj key path := by
  obtain ⟨path, hchain⟩ := exists_chain h obj
  have hfresh : obj ∉ ([] : List ObjectId) := List.not_mem_nil
  have hlength := hchain.length_le (List.nodup_singleton obj) fun _ ho => by cases ho
  have hget : h.get obj key = path.findSomeM? fun o => h.getOwn o key :=
    hchain.getFrom_eq hs hfresh key (Nat.lt_succ_of_le hlength)
  refine ⟨path, hchain, fun path' hchain' => hchain'.unique hchain, (hchain.nodup hfresh).1, hchain.isLive, ?_⟩
  refine ⟨fun before o behind v hsplit hbefore hown => ?_, fun hnone => ?_, fun hobj hlinks => ?_,
    fun before o hsplit hdead hbefore => ?_⟩
  · rw [hget, hsplit, findSomeM?_append_of_none hbefore, List.findSomeM?, hown]
    rfl
  · rw [hget, ← List.append_nil path, findSomeM?_append_of_none hnone]
    rfl
  · obtain ⟨found, hfound⟩ := exists_findSomeM?_eq_ok fun o ho => hs.getOwn_ok (hchain.isLive_all hobj hlinks o ho) key
    exact ⟨found, hget.trans hfound⟩
  · have hcell : h.objects.get? o.cell = none := by
      rw [Option.eq_none_iff_forall_ne_some]
      exact fun cell hcell => hdead ⟨cell, hcell⟩
    rw [hget, hsplit, findSomeM?_append_of_none hbefore, List.findSomeM?, getOwn_of_dead hcell]
    rfl

/-- A short name as a value. -/
def inlineName (text : List UInt8) (short : text.length ≤ maxInlineLength) : Value :=
  .string (.inline ⟨text, short⟩)

/-- An object and an array that delegate to each other. The object holds a value as `x`. -/
def roundabout : Heap :=
  let x := inlineName (Text.bytesOf "x") (by decide +kernel)
  let delegate := inlineName delegateKey (by decide +kernel)
  let h := ((empty {}).newCell .plain).1
  let h := (h.newCell (.array #[])).1
  let h := leftBy (h.set ⟨⟨0, 0⟩⟩ x (.boolean true))
  let h := leftBy (h.set ⟨⟨0, 0⟩⟩ delegate (.array ⟨⟨1, 0⟩⟩))
  leftBy (h.set ⟨⟨1, 0⟩⟩ delegate (.object ⟨⟨0, 0⟩⟩))

/-- The array goes by way of the object, and back to itself, and no further. -/
theorem get_nearest_roundabout :
    roundabout.Sound ∧ roundabout.Chain [] ⟨⟨1, 0⟩⟩ [⟨⟨1, 0⟩⟩, ⟨⟨0, 0⟩⟩] ∧
      roundabout.get ⟨⟨1, 0⟩⟩ (Text.bytesOf "x") = .ok (some (.boolean true)) ∧
      roundabout.get ⟨⟨1, 0⟩⟩ (Text.bytesOf "y") = .ok none := by
  have hkeeps : (empty {}).Keeps roundabout :=
    (((Change.keeps (.cell .plain)).trans (Change.keeps (.cell (.array #[])))).trans
      (Change.keeps (.set _ _ _))).trans ((Change.keeps (.set _ _ _)).trans (Change.keeps (.set _ _ _)))
  have haddr : roundabout.Addressable :=
    ⟨show roundabout.objects.Addressable by decide +kernel, show roundabout.properties.Addressable by decide +kernel,
      show roundabout.signatures.Addressable by decide +kernel⟩
  have hs : roundabout.Sound := hkeeps.sound haddr (unmarked_empty {}) (sound_empty {})
  have hchain : roundabout.Chain [] ⟨⟨1, 0⟩⟩ [⟨⟨1, 0⟩⟩, ⟨⟨0, 0⟩⟩] := by
    have hforth : roundabout.delegate? ⟨⟨1, 0⟩⟩ = some ⟨⟨0, 0⟩⟩ := by decide +kernel
    refine .next hforth (by decide) (.stop fun next hnext => ?_)
    have hback : roundabout.delegate? ⟨⟨0, 0⟩⟩ = some ⟨⟨1, 0⟩⟩ := by decide +kernel
    rw [hback] at hnext
    cases hnext
    decide
  have hnone (key : List UInt8) (hown : roundabout.getOwn ⟨⟨1, 0⟩⟩ key = .ok none) :
      ∀ o ∈ [(⟨⟨1, 0⟩⟩ : ObjectId)], roundabout.getOwn o key = .ok none := by
    intro o ho
    rw [List.mem_singleton.1 ho, hown]
  obtain ⟨path, -, hunique, -, -, hx⟩ := get_nearest hs ⟨⟨1, 0⟩⟩ (Text.bytesOf "x")
  obtain ⟨path', -, hunique', -, -, hy⟩ := get_nearest hs ⟨⟨1, 0⟩⟩ (Text.bytesOf "y")
  refine ⟨hs, hchain, ?_, ?_⟩
  · exact hx.found [⟨⟨1, 0⟩⟩] ⟨⟨0, 0⟩⟩ [] _ (hunique _ hchain).symm (hnone _ (by with_unfolding_all rfl))
      (by with_unfolding_all rfl)
  · refine hy.missing ?_
    rw [← hunique' _ hchain]
    intro o ho
    rcases List.mem_cons.1 ho with rfl | ho
    · with_unfolding_all rfl
    · rw [List.mem_singleton.1 ho]
      with_unfolding_all rfl

end ScriptEngine.Heap
