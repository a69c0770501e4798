import ScriptEngine.Machine.Operator
import ScriptEngine.Proofs.Machine.Pairs
/-!
Properties and operators on machines that hold the same.

What values have under a key stands for what the ones that they stand for have there, whether by their kind
or because it was set, and operators do the same. The embedder has no part in it: there is no native code,
so that foreign memory cannot be read or written.
-/

namespace ScriptEngine

/-- An embedder without functions and without native code. -/
structure Embedding.Bare {W : Type} (env : Embedding W) : Prop where
  natives : env.natives = #[]
  host : env.host = none

namespace Machine

open Heap (Same)

variable {W α β : Type} {env : Embedding W} {p q : Pairing} {h h' : Heap} {m m' : Machine W}
  {v v' w w' holder holder' key key' : Value} {id id' : ObjectId}

/-! ## Reading -/

theorem keyIndex?_eq (hkey : p.Values key key') (name : List UInt8) : keyIndex? key' name = keyIndex? key name := by
  cases hkey <;> rfl

theorem byteAssignment_eq (hkey : p.Values key key') (hv : p.Values v v') :
    byteAssignment key' v' = byteAssignment key v := by
  unfold byteAssignment
  rw [hkey.asNumber?_eq, hv.asNumber?_eq]

theorem rel_textProperty (H : h.Paired p h') {s s' : StringRef} (hs : p.Texts s s') (hkey : p.Values key key')
    (name : List UInt8) :
    Option.Rel p.Values (textProperty h.strings s key name) (textProperty h'.strings s' key' name) := by
  have hitem (i : Nat) : p.Values (textItem h.strings s i) (textItem h'.strings s' i) := by
    unfold textItem
    rw [H.byte?_eq hs]
    cases h.strings.byte? s i with
    | none => exact .undefined
    | some b =>
      simp only
      cases hinline : Value.ofInline? [b] with
      | none => exact .undefined
      | some v => exact Pairing.Values.ofInline? hinline
  unfold textProperty
  rw [H.length_eq hs, keyIndex?_eq hkey]
  split
  · exact .some (.ofNat _)
  · exact .some (.native _)
  · exact .some (.native _)
  · exact .some (.native _)
  · cases keyIndex? key name with
    | none => exact .none
    | some i => exact .some (hitem i)

theorem rel_bufferProperty (H : h.Paired p h') (hid : p.objects id id') (hkey : p.Values key key') (name : List UInt8) :
    ResultLike (Option.Rel p.Values) (h.bufferProperty id key name) (h'.bufferProperty id' key' name) := by
  unfold Heap.bufferProperty
  rw [H.buffer_eq hid, keyIndex?_eq hkey]
  cases h.buffer id with
  | error e => exact .error e
  | ok bytes =>
    simp only [bind, Except.bind]
    split
    · exact .ok (.some (.ofNat _))
    · refine .ok ?_
      cases keyIndex? key name with
      | none => exact .none
      | some i =>
        refine .some ?_
        show p.Values ((bytes.byte? i).elim _ _) ((bytes.byte? i).elim _ _)
        cases bytes.byte? i with
        | none => exact .undefined
        | some b => exact .ofNat _

theorem rel_viewItem (H : h.Paired p h') (hid : p.objects id id') (offset length i : Nat) :
    ResultLike p.Values (h.viewItem id offset length i) (h'.viewItem id' offset length i) := by
  unfold Heap.viewItem
  rw [H.buffer_eq hid]
  split
  · cases h.buffer id with
    | error e => exact .error e
    | ok bytes => exact .ok (.ofNat _)
  · exact .ok .undefined

theorem rel_viewProperty (H : h.Paired p h') (hid : p.objects id id') (hkey : p.Values key key') (name : List UInt8) :
    ResultLike (Option.Rel p.Values) (h.viewProperty id key name) (h'.viewProperty id' key' name) := by
  have hview := H.view hid
  unfold Heap.viewProperty
  generalize h.view id = x, h'.view id' = x' at hview ⊢
  cases hview with
  | error e => exact .error e
  | @ok a b hab =>
    obtain ⟨buffer, offset, length⟩ := a
    obtain ⟨buffer', offset', length'⟩ := b
    obtain ⟨hbuffer, heq⟩ := hab
    cases heq
    simp only [bind, Except.bind, H.buffer_eq hbuffer, keyIndex?_eq hkey]
    split
    · cases h.buffer buffer with
      | error e => exact .error e
      | ok bytes => exact .ok (.some (.ofNat _))
    · exact .ok (.some (.ofNat _))
    · exact .ok (.some (.arrayBuffer hbuffer))
    · cases keyIndex? key name with
      | none => exact .ok .none
      | some i =>
        have hitem := rel_viewItem H hbuffer offset length i
        simp only
        generalize h.viewItem buffer offset length i = x, h'.viewItem buffer' offset length i = x' at hitem ⊢
        cases hitem with
        | error e => exact .error e
        | ok hv => exact .ok (.some hv)

theorem rel_arrayProperty (H : h.Paired p h') (hid : p.objects id id') (name : List UInt8) :
    ResultLike (Option.Rel p.Values) (h.arrayProperty id name) (h'.arrayProperty id' name) := by
  have hitems := H.items hid
  unfold Heap.arrayProperty
  split
  · exact .ok (.some (.native _))
  · generalize h.items id = x, h'.items id' = x' at hitems ⊢
    cases hitems with
    | error e => exact .error e
    | ok hrows =>
      refine .ok (.some ?_)
      rw [hrows.size_eq]
      exact .ofNat _
  · exact .ok .none

theorem rel_kindProperty (hbare : env.Bare) (H : Paired p m m') (hholder : p.Values holder holder')
    (hkey : p.Values key key') (name : List UInt8) :
    ResultLike (Option.Rel p.Values) (m.kindProperty env holder key name) (m'.kindProperty env holder' key' name) := by
  have happly {x x' : Except Error (Option Value)} (h : ResultLike (Option.Rel p.Values) x x') :
      ResultLike (Option.Rel p.Values) (if KindProperty.ofName name = .apply then .ok (some Builtin.apply.value) else x)
        (if KindProperty.ofName name = .apply then .ok (some Builtin.apply.value) else x') := by
    split
    · exact .ok (.some (.native _))
    · exact h
  cases hholder with
  | string hs => exact .ok (rel_textProperty H.heap hs hkey name)
  | number n =>
    refine happly (.ok ?_)
    split
    · exact .some (.native _)
    · exact .none
  | array hid => exact happly (rel_arrayProperty H.heap hid name)
  | foreign address =>
    refine happly ?_
    unfold foreignItem Embedding.requireHost
    rw [keyIndex?_eq hkey, hbare.host]
    cases keyIndex? key name <;> exact .error _
  | arrayBuffer hid => exact happly (rel_bufferProperty H.heap hid hkey name)
  | dataView hid => exact happly (rel_viewProperty H.heap hid hkey name)
  | _ => exact happly (.ok .none)

theorem rel_ownProperty (H : Paired p m m') (hholder : p.Values holder holder') (hkey : p.Values key key')
    (name : List UInt8) : ResultLike p.Values (m.ownProperty holder key name) (m'.ownProperty holder' key' name) := by
  have hget {id id' : ObjectId} (hid : p.objects id id') :
      ResultLike p.Values ((m.heap.get id name).map fun v => v.getD .undefined)
        ((m'.heap.get id' name).map fun v => v.getD .undefined) := by
    have hfound := H.heap.get hid name
    generalize m.heap.get id name = x, m'.heap.get id' name = x' at hfound ⊢
    cases hfound with
    | error e => exact .error e
    | ok hv => exact .ok (.getD hv)
  cases hholder with
  | object hid => exact hget hid
  | @array id id' hid =>
    unfold ownProperty
    simp only [keyIndex?_eq hkey]
    cases keyIndex? key name with
    | none => exact hget hid
    | some i =>
      have hitems := H.heap.items hid
      simp only
      generalize m.heap.items id = x, m'.heap.items id' = x' at hitems ⊢
      cases hitems with
      | error e => exact .error e
      | ok hrows => exact .ok (.getD (hrows.getElem? i))
  | arrayBuffer hid => exact .ok .undefined
  | dataView hid => exact .ok .undefined
  | _ => exact .error _

/-- What a value has under a key stands for what the one that it stands for has there. -/
theorem rel_property (hbare : env.Bare) (H : Paired p m m') (hholder : p.Values holder holder')
    (hkey : p.Values key key') : ResultLike p.Values (m.property env holder key) (m'.property env holder' key') := by
  unfold property
  rw [H.heap.textOf_eq hkey]
  cases m.heap.textOf key with
  | error e => exact .error e
  | ok name =>
    have hkind := rel_kindProperty hbare H hholder hkey name
    simp only [bind, Except.bind]
    generalize m.kindProperty env holder key name = x, m'.kindProperty env holder' key' name = x' at hkind ⊢
    cases hkind with
    | error e => exact .error e
    | ok hfound =>
      cases hfound with
      | none => exact rel_ownProperty H hholder hkey name
      | some hv => exact .ok hv

theorem rel_walkKey (H : Paired p m m') (hholder : p.Values holder holder') (n : Nat) :
    ResultLike (Option.Rel p.Values) (m.walkKey holder n) (m'.walkKey holder' n) := by
  cases hholder with
  | object hid => exact H.heap.nthKey hid n
  | @array id id' hid =>
    have hitems := H.heap.items hid
    unfold walkKey
    simp only
    generalize m.heap.items id = x, m'.heap.items id' = x' at hitems ⊢
    cases hitems with
    | error e => exact .error e
    | ok hrows =>
      refine .ok ?_
      simp only [hrows.size_eq]
      split
      · exact .some (.ofNat _)
      · exact .none
  | _ => exact .error _

theorem rel_declaringScope? (H : h.Paired p h') (name : List UInt8) {scopes scopes' : Array Value}
    (hscopes : Rows p.Values scopes scopes') (n : Nat) :
    ResultLike (Option.Rel p.Values) (declaringScope? h name scopes n) (declaringScope? h' name scopes' n) := by
  induction n with
  | zero => exact .ok .none
  | succ n ih =>
    have hscope : p.Values (scopes.getD n .undefined) (scopes'.getD n .undefined) := by
      rw [Array.getD_eq_getD_getElem?, Array.getD_eq_getD_getElem?]
      exact .getD (hscopes.getElem? n)
    have hholder := hscope.propertyHolder?
    simp only [declaringScope?]
    generalize (scopes.getD n .undefined).propertyHolder? = x, (scopes'.getD n .undefined).propertyHolder? = x'
      at hholder ⊢
    cases hholder with
    | none => exact ih
    | @some id id' hid =>
      have hown := H.getOwn hid name
      simp only
      generalize h.getOwn id name = y, h'.getOwn id' name = y' at hown ⊢
      cases hown with
      | error e => exact .error e
      | ok hfound =>
        cases hfound with
        | none => exact ih
        | some _ => exact .ok (.some hscope)

theorem rel_findScope (H : Paired p m m') (hname : p.Values v v') :
    ResultLike p.Values (m.findScope v) (m'.findScope v') := by
  unfold findScope
  rw [H.heap.keyBytes_eq hname]
  cases m.heap.keyBytes v with
  | error e => exact .error e
  | ok bytes =>
    have hscope := rel_declaringScope? H.heap bytes H.scopes m.scopes.size
    simp only [bind, Except.bind, H.scopes.size_eq]
    generalize declaringScope? m.heap bytes m.scopes m.scopes.size = x,
      declaringScope? m'.heap bytes m'.scopes m.scopes.size = x' at hscope ⊢
    cases hscope with
    | error e => exact .error e
    | ok hfound =>
      cases hfound with
      | none => exact .error _
      | some hv => exact .ok hv

theorem alike_property (hbare : env.Bare) (hholder : p.Values holder holder') (hkey : p.Values key key') :
    Alike p Pairing.Values (inspect fun m => m.property env holder key) (inspect fun m => m.property env holder' key') :=
  alike_inspect fun hle _ _ H => rel_property hbare H (hholder.mono hle) (hkey.mono hle)

theorem alike_findScope (hname : p.Values v v') :
    Alike p Pairing.Values (inspect fun m : Machine W => m.findScope v) (inspect fun m => m.findScope v') :=
  alike_inspect fun hle _ _ H => rel_findScope H (hname.mono hle)

theorem alike_truthy (hv : p.Values v v') :
    Alike p Same (inspect fun m : Machine W => .ok (m.heap.truthy v)) (inspect fun m => .ok (m.heap.truthy v')) :=
  alike_inspect fun hle _ _ H => .ok (H.heap.truthy_eq (hv.mono hle))

/-! ## Writing -/

instance calm_setViewItem (id : ObjectId) (i : Nat) (b : UInt8) : Calm (setViewItem id i b : Work W Unit) :=
  calm_onHeap fun h => by
    split
    · split
      · exact h.grows_setByte _ _ _ _
      · exact .refl h
    · exact .refl h

instance calm_setForeignItem (env : Embedding W) (address : UInt64) (b : UInt8) :
    Calm (setForeignItem env address b) := by
  have (world : W) : Calm (modify fun m : Machine W => { m with world := world }) :=
    calm_stacks (fun _ => rfl) fun _ => rfl
  unfold setForeignItem
  infer_instance

instance calm_setProperty (env : Embedding W) (holder key v : Value) : Calm (setProperty env holder key v) := by
  cases holder with
  | array id =>
    have (name : List UInt8) : Calm (match keyIndex? key name with
        | some i => onHeap fun h => h.arraySet id i v
        | none => setNamed id key v : Work W Unit) := by
      split <;> infer_instance
    exact calm_bind _ _
  | _ => unfold setProperty; infer_instance

theorem alike_setByte (hid : p.objects id id') (i shown : Nat) (b : UInt8) :
    Alike p Same (onHeap fun h => h.setByte id i shown b : Work W Unit) (onHeap fun h => h.setByte id' i shown b) :=
  alike_onHeap fun hle _ _ H hfits hfits' => H.setByte (hle.objects hid) i shown b hfits hfits'

theorem alike_setViewItem (hid : p.objects id id') (i : Nat) (b : UInt8) :
    Alike p Same (setViewItem id i b : Work W Unit) (setViewItem id' i b) := by
  refine alike_onHeap fun {q} hle heap heap' H hfits hfits' => ?_
  have hview := H.view (hle.objects hid)
  generalize heap.view id = x, heap'.view id' = x' at hview hfits hfits' ⊢
  cases hview with
  | error e => exact ⟨q, .refl q, H, .error e⟩
  | @ok a a' hab =>
    obtain ⟨buffer, offset, length⟩ := a
    obtain ⟨buffer', offset', length'⟩ := a'
    obtain ⟨hbuffer, heq⟩ := hab
    cases heq
    simp only at hfits hfits' ⊢
    by_cases hi : i < length
    · rw [if_pos hi] at hfits hfits' ⊢
      rw [if_pos hi]
      exact H.setByte hbuffer _ _ _ hfits hfits'
    · rw [if_neg hi, if_neg hi]
      exact ⟨q, .refl q, H, .error _⟩

theorem alike_setForeignItem (hbare : env.Bare) (address : UInt64) (b : UInt8) :
    Alike p Same (setForeignItem env address b) (setForeignItem env address b) := by
  have hthrow : setForeignItem env address b = throw (.type "resolver is not set") := by
    unfold setForeignItem Embedding.requireHost
    rw [hbare.host]
    rfl
  rw [hthrow]
  exact alike_throw _

theorem alike_setProperty (hbare : env.Bare) (hholder : p.Values holder holder') (hkey : p.Values key key')
    (hv : p.Values v v') : Alike p Same (setProperty env holder key v) (setProperty env holder' key' v') := by
  have hbyte : Alike p Same (ofExcept (byteAssignment key v) : Work W (Nat × UInt8)) (ofExcept (byteAssignment key' v')) := by
    rw [byteAssignment_eq hkey hv]
    refine alike_ofExcept fun _ => ?_
    cases byteAssignment key v with
    | ok place => exact .ok rfl
    | error e => exact .error e
  cases hholder with
  | object hid => exact alike_setNamed hid hkey hv
  | @array id id' hid =>
    have hnext (id : ObjectId) (key v : Value) (name : List UInt8) : Calm (match keyIndex? key name with
        | some i => onHeap fun h => h.arraySet id i v
        | none => setNamed id key v : Work W Unit) := by
      split <;> infer_instance
    have := hnext id key v
    have := hnext id' key' v'
    refine alike_bind (alike_textOf hkey) ?_
    rintro q hle name _ rfl
    rw [keyIndex?_eq hkey]
    split
    · exact alike_onHeap fun hle' _ _ H hfits hfits' =>
        H.arraySet ((hle.trans hle').objects hid) _ (hv.mono (hle.trans hle')) hfits hfits'
    · exact alike_setNamed (hle.objects hid) (hkey.mono hle) (hv.mono hle)
  | arrayBuffer hid =>
    refine alike_bind hbyte ?_
    rintro q hle place _ rfl
    exact alike_setByte (hle.objects hid) _ _ _
  | dataView hid =>
    refine alike_bind hbyte ?_
    rintro q hle place _ rfl
    exact alike_setViewItem (hle.objects hid) _ _
  | foreign address =>
    refine alike_bind hbyte ?_
    rintro q hle place _ rfl
    exact alike_setForeignItem hbare _ _
  | _ => exact alike_throw _

/-! ## Operators -/

theorem alike_strictEquals (hv : p.Values v v') (hw : p.Values w w') :
    Alike p Same (inspect fun m : Machine W => .ok (m.heap.strictEquals v w))
      (inspect fun m => .ok (m.heap.strictEquals v' w')) :=
  alike_inspect fun hle _ _ H => .ok (H.heap.strictEquals_eq (hv.mono hle) (hw.mono hle))

theorem rel_addressDistance (op : Code.Operator) (a b : Address) :
    ResultLike p.Values (addressDistance op a b) (addressDistance op a b) := by
  unfold addressDistance
  split
  · exact .ok (.number _)
  · exact .error _

theorem rel_moveAddress (op : Code.Operator) (a : Address) (n : Number) (addressFirst : Bool) :
    ResultLike p.Values (moveAddress op a n addressFirst) (moveAddress op a n addressFirst) := by
  have haddress (word : UInt64) : ResultLike p.Values (addressValue word) (addressValue word) := by
    unfold addressValue Value.ofAddress?
    cases Address.ofWord? word with
    | ok a => exact .ok (.foreign a)
    | error e => exact .error _
  unfold moveAddress
  split
  · exact haddress _
  · exact haddress _
  · exact .error _

instance calm_concatStrings (s t : StringRef) : Calm (onHeap fun h => h.concatStrings s t : Work W Value) :=
  calm_onHeap fun h => h.grows_concatStrings s t

instance calm_binary (op : Code.Operator) (a b : Value) : Calm (binary op a b : Work W Value) := by
  unfold binary
  split <;> infer_instance

theorem alike_binary (op : Code.Operator) (hv : p.Values v v') (hw : p.Values w w') :
    Alike p Pairing.Values (binary op v w : Work W Value) (binary op v' w') := by
  cases hv <;> cases hw
  case foreign.foreign a b => exact alike_ofExcept fun _ => rel_addressDistance op a b
  case foreign.number a n => exact alike_ofExcept fun _ => rel_moveAddress op a n true
  case number.foreign n a => exact alike_ofExcept fun _ => rel_moveAddress op a n false
  case number.number x y => exact alike_pure fun _ => .number _
  case string.string s s' hs t t' ht =>
    simp only [binary]
    split
    · exact alike_onHeap fun hle _ _ H hfits hfits' => H.concatStrings (hs.mono hle) (ht.mono hle) hfits hfits'
    · exact alike_throw _
  all_goals exact alike_throw _

instance calm_unary (op : Code.Operator) (v : Value) : Calm (unary op v : Work W Value) := by
  unfold unary
  split <;> infer_instance

theorem alike_unary (op : Code.Operator) (hv : p.Values v v') :
    Alike p Pairing.Values (unary op v : Work W Value) (unary op v') := by
  cases op
  case not =>
    refine alike_bind (alike_truthy hv) ?_
    rintro q hle holds _ rfl
    exact alike_pure fun _ => .boolean _
  case pos => exact alike_pure hv.mono
  case typeOf =>
    simp only [unary, hv.typeName_eq]
    exact alike_lend _ _
  case neg | bitNot =>
    simp only [unary, hv.toNumber_eq]
    exact alike_pure fun _ => .number _
  all_goals exact alike_throw _

instance calm_update (env : Embedding W) (op : Code.Operator) (holder key v : Value) :
    Calm (update env op holder key v) := by
  unfold update
  infer_instance

theorem alike_update (hbare : env.Bare) (op : Code.Operator) (hholder : p.Values holder holder')
    (hkey : p.Values key key') (hv : p.Values v v') :
    Alike p (fun q a b => q.Values a.1 b.1 ∧ q.Values a.2 b.2) (update env op holder key v)
      (update env op holder' key' v') := by
  refine alike_bind (alike_property hbare hholder hkey) fun {q} hq old old' hold => ?_
  refine alike_bind (alike_binary op hold (hv.mono hq)) fun {r} hr new new' hnew => ?_
  refine alike_bind (alike_setProperty hbare (hholder.mono (hq.trans hr)) (hkey.mono (hq.trans hr)) hnew) ?_
  rintro s hs _ _ -
  exact alike_pure fun ht => ⟨hold.mono (hr.trans (hs.trans ht)), hnew.mono (hs.trans ht)⟩

instance calm_compoundAssign (env : Embedding W) (op : Code.Operator) : Calm (compoundAssign env op) := by
  unfold compoundAssign
  infer_instance

/-- Work that only goes on with the object of a key. -/
theorem alike_unlessHolder {work work' : Work W Unit} [Growing work] [Growing work'] (e : Error)
    (hholder : p.Values holder holder') (h : Alike p Same work work') :
    Alike p Same
      (do
        if holder.propertyHolder?.isNone then throw e
        work)
      (do
        if holder'.propertyHolder?.isNone then throw e
        work') := by
  have hid := hholder.propertyHolder?
  generalize holder.propertyHolder? = x, holder'.propertyHolder? = x' at hid ⊢
  cases hid with
  | none => exact alike_bind (R := Same) (alike_throw e) fun hle _ _ _ => h.mono hle
  | some _ => exact h

theorem alike_compoundAssign (hbare : env.Bare) (op : Code.Operator) :
    Alike p Same (compoundAssign env op) (compoundAssign env op) := by
  refine alike_bind alike_pop fun {q} hq v v' hv => alike_bind alike_pop fun {r} hr holder holder' hholder =>
    alike_bind alike_pop fun {s} hs key key' hkey => ?_
  refine alike_unlessHolder _ (hholder.mono hs) (alike_bind (alike_update hbare op (hholder.mono hs) hkey
    (hv.mono (hr.trans hs))) ?_)
  rintro t ht a b ⟨-, hnew⟩
  exact alike_push hnew

instance calm_step (env : Embedding W) (op : Code.Operator) (symbol : String) (givesNew : Bool) :
    Calm (step env op symbol givesNew) := by
  unfold step
  infer_instance

theorem alike_step (hbare : env.Bare) (op : Code.Operator) (symbol : String) (givesNew : Bool) :
    Alike p Same (step env op symbol givesNew) (step env op symbol givesNew) := by
  refine alike_bind alike_pop fun {q} hq holder holder' hholder => alike_bind alike_pop fun {r} hr key key' hkey => ?_
  refine alike_unlessHolder _ (hholder.mono hr) (alike_bind (alike_update hbare op (hholder.mono hr) hkey (.ofNat 1)) ?_)
  rintro t ht a b ⟨hold, hnew⟩
  cases givesNew
  · exact alike_push hold
  · exact alike_push hnew

instance calm_assign (env : Embedding W) : Calm (assign env) := by
  unfold assign
  infer_instance

theorem alike_assign (hbare : env.Bare) : Alike p Same (assign env) (assign env) := by
  refine alike_bind alike_pop fun {q} hq v v' hv => alike_bind alike_pop fun {r} hr holder holder' hholder =>
    alike_bind alike_pop fun {s} hs key key' hkey => ?_
  refine alike_bind (alike_setProperty hbare (hholder.mono hs) hkey (hv.mono (hr.trans hs))) ?_
  rintro t ht _ _ -
  exact alike_push (hv.mono (hr.trans (hs.trans ht)))

/-- What takes two operands and gives a value. -/
theorem alike_twoOperands {f : Value → Value → Work W Value} [∀ a b, Growing (f a b)]
    (h : ∀ {q : Pairing} {a a' b b'}, p.Le q → q.Values a a' → q.Values b b' → Alike q Pairing.Values (f a b) (f a' b')) :
    Alike p Same
      (do
        let b ← pop
        let a ← pop
        push (← f a b))
      (do
        let b ← pop
        let a ← pop
        push (← f a b)) :=
  alike_bind alike_pop fun hq _ _ hb => alike_bind alike_pop fun hr _ _ ha =>
    alike_bind (h (hq.trans hr) ha (hb.mono hr)) fun _ _ _ hv => alike_push hv

instance calm_operate (env : Embedding W) (op : Code.Operator) : Calm (operate env op) := by
  unfold operate
  split <;> infer_instance

theorem alike_operate (hbare : env.Bare) (op : Code.Operator) : Alike p Same (operate env op) (operate env op) := by
  cases op with
  | add | sub | mul | div | rem | shl | shr | ushr | bitAnd | bitOr | bitXor =>
    exact alike_twoOperands fun _ ha hb => alike_binary _ ha hb
  | lt | le | gt | ge =>
    refine alike_bind alike_pop fun {q} hq b b' hb => alike_bind alike_pop fun {r} hr a a' ha => ?_
    rw [ha.toNumber_eq, hb.toNumber_eq]
    exact alike_push (.boolean _)
  | eq => exact alike_throw _
  | ne => exact alike_throw _
  | strictEq | strictNe =>
    refine alike_bind alike_pop fun {q} hq b b' hb => alike_bind alike_pop fun {r} hr a a' ha =>
      alike_bind (alike_strictEquals ha (hb.mono hr)) ?_
    rintro s hs same _ rfl
    exact alike_push (.boolean _)
  | not | bitNot | neg | pos | typeOf =>
    exact alike_bind alike_pop fun _ _ _ hv => alike_bind (alike_unary _ hv) fun _ _ _ hw => alike_push hw
  | assign => exact alike_assign hbare
  | addAssign | subAssign | mulAssign | divAssign | remAssign | shlAssign | shrAssign | ushrAssign
  | bitAndAssign | bitOrAssign | bitXorAssign => exact alike_compoundAssign hbare _
  | preInc | preDec | postInc | postDec => exact alike_step hbare _ _ _

end Machine

end ScriptEngine
