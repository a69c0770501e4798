import ScriptEngine.Proofs.Heap.Histories
import ScriptEngine.Proofs.Heap.Views
import ScriptEngine.Proofs.Machine.Indexing
import ScriptEngine.Proofs.Machine.Interruptions
import ScriptEngine.Proofs.Machine.NestedRows
import ScriptEngine.Proofs.Machine.Reached
import ScriptEngine.Proofs.Machine.Receivers
import ScriptEngine.Proofs.Machine.StillOpen
/-!
Declarations in loops and blocks.

A declaration makes a variable in the innermost scope, unless that has one of the name (`Machine.Declares`). A loop opens
one scope, with nothing in it, and all its iterations take place in that scope; so does a block each time it is entered
(`Moment.declaration_in_shared_scope`). A variable that the body of a loop declares is thus undefined only where the
scope does not have it, and is otherwise what an earlier iteration left.
-/

namespace ScriptEngine

/-! ## Texts that are made -/

namespace Heap

variable {h h' : Heap} {bytes : List UInt8} {v : Value}

/-- A new text is there. -/
theorem knows_of_newString (hholds : ∃ texts, h.strings.Holds texts) (hstore : h.newString bytes = .ok v h')
    (hfits : h'.strings.data.size < UInt64.size) : h'.Knows v := by
  obtain ⟨texts, hholds⟩ := hholds
  rw [newString_eq] at hstore
  split at hstore <;> cases hstore
  rename_i strings halloc
  unfold StringHeap.alloc at halloc
  split at halloc
  · rename_i hinline
    cases halloc
    obtain ⟨text, -, rfl⟩ := Option.map_eq_some_iff.mp hinline
    trivial
  · obtain ⟨hmore, offset, rfl, hoffset⟩ := hholds.allocRecord halloc hfits
    refine ⟨_, hmore, bytes.toByteArray.data.toList, ?_⟩
    rw [StringHeap.entriesFrom_append, hoffset, Nat.zero_add]
    exact List.mem_append_right _ List.mem_cons_self

end Heap

namespace Machine

variable {W : Type} {env : Embedding W} {m n : Machine W} {c c' : Cursor} {id : ObjectId} {text name : List UInt8}
  {v : Value}

/-- The texts that a machine holds are records of the buffer, and there is room for one more. -/
structure TakesText (m : Machine W) (text : List UInt8) : Prop where
  recordStarts : m.RecordStarts
  records : ∃ texts, m.heap.strings.Holds texts
  room : (leftBy (m.heap.newString text)).strings.data.size < payloadSize

/-- A text that is made stays what it is where collections move it, since it is short or the buffer is in order. -/
def KeepsText (m : Machine W) (text : List UInt8) : Prop :=
  text.length ≤ maxInlineLength ∨ m.TakesText text

/-- A text that is held stays what it is where collections move it. -/
def Lasts (m : Machine W) (v : Value) : Prop :=
  (∃ text, v = .string (.inline text)) ∨ m.RecordStarts ∧ v ∈ m.heldValues ∧ m.heap.Knows v

/-- What is held besides a value on top of the stack. -/
theorem mem_heldValues_push {heap : Heap} {w : Value}
    (hw : w ∈ ({ m with heap := heap, stack := m.stack.push v } : Machine W).heldValues) : w = v ∨ w ∈ m.heldValues := by
  simp only [heldValues, Array.toList_push, List.append_assoc, List.mem_append, List.mem_cons, List.not_mem_nil,
    or_false] at hw ⊢
  tauto

/-- A new text is put on the stack. -/
theorem TakesText.push (h : m.TakesText text) {heap : Heap} (hstore : m.heap.newString text = .ok v heap) :
    ({ m with heap := heap, stack := m.stack.push v } : Machine W).RecordStarts
      ∧ heap.Knows v ∧ heap.text? v = some text := by
  have hroom : heap.strings.data.size < payloadSize := by
    have hroom := h.room
    rwa [hstore] at hroom
  have hfits : heap.strings.data.size < UInt64.size := Nat.lt_trans hroom (by decide)
  have hafter : m.heap.after (.text text) = heap := by
    show leftBy (m.heap.newString text) = heap
    rw [hstore]
    rfl
  have hgrows : m.heap.strings.Grows heap.strings := by
    have hallows : (m.heap.after (.text text)).strings.data.size < UInt64.size := by rwa [hafter]
    have hgrows := Heap.grows_after (q := .text text) hallows (by simp)
    rwa [hafter] at hgrows
  obtain ⟨hobjects, hproperties, -⟩ := m.heap.after_text text
  rw [hafter] at hobjects hproperties
  have hknows := Heap.knows_of_newString h.records hstore hfits
  refine ⟨⟨fun w hw offset hoffset => ?_, fun i cell hcell w hw offset hoffset => ?_,
    fun i p hp w hw offset hoffset => ?_⟩, hknows, ?_⟩
  · rcases mem_heldValues_push hw with rfl | hw
    · exact hknows.isRecord hoffset
    · exact hgrows.isRecord (h.recordStarts.roots w hw offset hoffset)
  · rw [show ({ m with heap := heap, stack := m.stack.push v } : Machine W).heap = heap from rfl, hobjects] at hcell
    exact hgrows.isRecord (h.recordStarts.items i cell hcell w hw offset hoffset)
  · rw [show ({ m with heap := heap, stack := m.stack.push v } : Machine W).heap = heap from rfl, hproperties] at hp
    exact hgrows.isRecord (h.recordStarts.properties i p hp w hw offset hoffset)
  · rw [Heap.newString_eq] at hstore
    split at hstore <;> cases hstore
    exact StringHeap.text?_of_alloc ‹_› hroom

/-- What is no text can be put on the stack. -/
theorem RecordStarts.push (h : m.RecordStarts) (hv : v.offset? = none) :
    ({ m with stack := m.stack.push v } : Machine W).RecordStarts := by
  refine ⟨fun w hw offset hoffset => ?_, h.items, h.properties⟩
  rcases mem_heldValues_push hw with rfl | hw
  · rw [hv] at hoffset
    cases hoffset
  · exact h.roots w hw offset hoffset

theorem getElem?_of_back? {ι : Type} {xs : Array ι} {x : ι} (h : xs.back? = some x) :
    xs[xs.size - 1]? = some x := by
  rwa [Array.back?_eq_getElem?] at h

theorem back?_collectIfNeeded (h : m.scopes.back? = some (.object id)) :
    m.collectIfNeeded.scopes.back? = some (.object id) := by
  obtain ⟨hspared, hskeleton⟩ := collectIfNeeded_spares m (Depths.Le.refl _)
  have hsize : m.collectIfNeeded.scopes.size = m.scopes.size := congrArg Skeleton.scopes hskeleton
  have hpos : 0 < m.scopes.size := by
    rw [Array.size_pos_iff]
    rintro hempty
    rw [hempty] at h
    cases h
  rw [Array.back?_eq_getElem?, hsize]
  exact hspared.scope (show m.scopes.size - 1 < m.scopes.size by omega) (getElem?_of_back? h)

/-- What a collection before an instruction does to values. -/
theorem exists_moved (m : Machine W) : ∃ g : Value → Value, m.collectIfNeeded.stack = m.stack.map g
    ∧ (∀ id, g (.object id) = .object id) ∧ (∀ text, g (.string (.inline text)) = .string (.inline text))
    ∧ (m.heap.Sound → m.heap.Unmarked → m.RecordStarts → m.collectIfNeeded.RecordStarts
      ∧ ∀ v ∈ m.heldValues, m.heap.Knows v → g v ∈ m.collectIfNeeded.heldValues
        ∧ m.collectIfNeeded.heap.Knows (g v) ∧ m.collectIfNeeded.heap.text? (g v) = m.heap.text? v) := by
  unfold Machine.collectIfNeeded
  split
  · obtain ⟨⟨heap, moves, stats⟩, hcollect⟩ :
      ∃ r, m.heap.collect m.heldValues false m.options.stringSlack = r := ⟨_, rfl⟩
    rw [collect_eq m false hcollect]
    refine ⟨StringHeap.relocate moves, rfl, fun _ => rfl, fun _ => rfl, fun hs hu hrecords => ?_⟩
    have hc := Heap.collected_collect hs hu hrecords false m.options.stringSlack
    rw [hcollect] at hc
    refine ⟨?_, fun v hv hknows => ⟨?_, hknows.collected hc (.root hv), (hc.readable (.root hv) hknows.isReadable).2⟩⟩
    · show Heap.Rooted heap _
      rw [heldValues_mapHeld]
      exact hc.rooted
    · rw [heldValues_mapHeld]
      exact List.mem_map_of_mem hv
  · exact ⟨fun v => v, (Array.map_id _).symm, fun _ => rfl, fun _ => rfl,
      fun _ _ hrecords => ⟨hrecords, fun v hv hknows => ⟨hv, hknows, rfl⟩⟩⟩

/-- A name is at hand, which is that of a variable in the innermost scope. -/
structure OffersName (m : Machine W) (id : ObjectId) (name : List UInt8) (key : Value) : Prop where
  lasts : m.Lasts key
  text : m.heap.text? key = some name
  inner : m.scopes.back? = some (.object id)

/-- Where a collection comes first, the name is still at hand. -/
theorem OffersName.collectIfNeeded {key : Value} (h : m.OffersName id name key) (hs : m.heap.Sound)
    (hu : m.heap.Unmarked) :
    ∃ g : Value → Value, m.collectIfNeeded.stack = m.stack.map g ∧ (∀ id, g (.object id) = .object id)
      ∧ m.collectIfNeeded.OffersName id name (g key) := by
  obtain ⟨g, hstack, hobject, hinline, hmoved⟩ := m.exists_moved
  have hinner := back?_collectIfNeeded h.inner
  refine ⟨g, hstack, hobject, ?_⟩
  rcases h.lasts with ⟨text, rfl⟩ | ⟨hrecords, hheld, hknows⟩
  · rw [hinline]
    exact ⟨.inl ⟨text, rfl⟩, h.text, hinner⟩
  · obtain ⟨hrecords, hvalues⟩ := hmoved hs hu hrecords
    obtain ⟨hheld, hknows, htext⟩ := hvalues key hheld hknows
    exact ⟨.inr ⟨hrecords, hheld, hknows⟩, htext.trans h.text, hinner⟩

/-! ## Steps of a declaration -/

/-- A run goes on behind its next instruction. -/
def PassesTo (env : Embedding W) (m : Machine W) (c : Cursor) (n : Machine W) (c' : Cursor) : Prop :=
  m.interrupted = false ∧ advance env c m.collectIfNeeded = .ok (.goOn c') n

theorem PassesTo.leads (h : m.PassesTo env c n c') : Leads env m.collectIfNeeded n := by
  have hleads : Leads env m.collectIfNeeded (leftBy (advance env c m.collectIfNeeded)) :=
    leads_operation (.instruction c) _
  rwa [h.2] at hleads

theorem PassesTo.carryOut (h : m.PassesTo env c n c') {ins : Code.Instr} {firstEnd next : Nat}
    (hread : Code.Decoded.read c.code c.pos = .instr ins firstEnd next) (heven : ins.isEven = true) :
    Machine.carryOut env c ins firstEnd next m.collectIfNeeded = .ok (.goOn next) n
      ∧ c' = { c with pos := next, previous := ins.op } := by
  have hgo := h.2
  rw [advance_eq env hread] at hgo
  obtain ⟨flow, n', hcarry, hsettle⟩ := bind_eq_ok.mp hgo
  have hflow := (proceeds_carryOut env c heven firstEnd next).flow hcarry
  subst hflow
  cases hsettle
  exact ⟨hcarry, rfl⟩

variable {firstEnd next : Nat} {flow : Flow} {key : Value} {stack : Array Value}

theorem KeepsText.offersName (h : m.KeepsText name) (hinner : m.scopes.back? = some (.object id))
    (hcarry : Machine.carryOut env c (.pushStr name) firstEnd next m = .ok flow n) :
    ∃ key, n.stack = m.stack.push key ∧ n.OffersName id name key := by
  simp only [Machine.carryOut] at hcarry
  obtain ⟨key, l, halloc, hpush⟩ := bind_eq_ok.mp hcarry
  unfold allocString onHeap at halloc
  split at halloc <;> cases halloc
  cases hpush
  rename_i heap hstore
  replace hstore : m.heap.newString name = .ok key heap := hstore
  rcases h with hshort | htakes
  · have hinline : Value.ofInline? name = some (.string (.inline ⟨name, hshort⟩)) := by
      rw [Value.ofInline?, InlineText.ofBytes?, dif_pos hshort]
      rfl
    rw [Heap.newString_eq, StringHeap.alloc, hinline] at hstore
    cases hstore
    exact ⟨_, rfl, .inl ⟨_, rfl⟩, rfl, hinner⟩
  · obtain ⟨hrecords, hknows, htext⟩ := htakes.push hstore
    exact ⟨key, rfl, .inr ⟨hrecords, by simp [heldValues], hknows⟩, htext, hinner⟩

theorem OffersName.pushScope (h : m.OffersName id name key)
    (hcarry : Machine.carryOut env c .pushScope firstEnd next m = .ok flow n) :
    n.stack = m.stack.push (.object id) ∧ n.OffersName id name key := by
  simp only [Machine.carryOut] at hcarry
  obtain ⟨scope, l, htop, hpush⟩ := bind_eq_ok.mp hcarry
  simp only [topScope, h.inner] at htop
  cases htop
  cases hpush
  refine ⟨rfl, h.lasts.imp_right fun ⟨hrecords, hheld, hknows⟩ => ⟨hrecords.push rfl, ?_, hknows⟩, h.text, h.inner⟩
  simp only [heldValues, Array.toList_push, List.append_assoc, List.mem_append] at hheld ⊢
  tauto

/-! ## Declarations -/

/-- A variable is declared in an object, which is the innermost scope: it is undefined if it was not there, and left as
it is if it was there; no other variable changes, and it is found in that scope and read. A variable with the name of
the property that every object has reads as that property. -/
structure Declares (env : Embedding W) (id : ObjectId) (name : List UInt8) (m n : Machine W) : Prop where
  fresh : m.heap.getOwn id name = .ok none → n.heap.getOwn id name = .ok (some .undefined)
  known : ∀ v, m.heap.getOwn id name = .ok (some v) → n.heap.getOwn id name = .ok (some v)
  others : ∀ id' name', ¬ (id' = id ∧ name' = name) → n.heap.getOwn id' name' = m.heap.getOwn id' name'
  reads : ∃ v, n.heap.getOwn id name = .ok (some v) ∧ ∀ x, n.heap.text? x = some name →
    n.findScope x = .ok (.object id)
      ∧ n.property env (.object id) x = .ok (if KindProperty.ofName name = .apply then Builtin.apply.value else v)

/-- A declaration in an object that is not there fails. -/
theorem exists_getOwn_of_declare (hkey : m.heap.text? key = some name) (h : declare (.object id) key m = .ok () n) :
    ∃ known, m.heap.getOwn id name = .ok known := by
  unfold declare at h
  obtain ⟨known, l, hlook, -⟩ := bind_eq_ok.mp h
  simp only [inspect, Heap.keyBytes, hkey, bind, Except.bind] at hlook
  split at hlook <;> cases hlook
  exact ⟨_, ‹_›⟩

theorem declares_of_declare (hs : m.heap.Sound) (hu : m.heap.Unmarked) (hkey : m.heap.text? key = some name)
    (hinner : m.scopes.back? = some (.object id)) (hdeclare : declare (.object id) key m = .ok () n)
    (ha : n.heap.Addressable) : m.Declares env id name n := by
  have hown := getOwn_of_declare hs hu hkey hdeclare ha
  have hscopes : n.scopes = m.scopes := by
    have hscopes : (leftBy (declare (.object id) key m)).scopes = m.scopes := Aloof.scopes m
    rwa [hdeclare] at hscopes
  obtain ⟨known, hfound⟩ := exists_getOwn_of_declare hkey hdeclare
  have hhere := hown id name
  rw [if_pos ⟨rfl, rfl⟩, hfound] at hhere
  refine ⟨fun hfresh => ?_, fun v hknown => ?_, fun id' name' hother => ?_, known.getD .undefined, hhere, fun x hx => ?_⟩
  · cases hfound.symm.trans hfresh
    exact hhere
  · cases hfound.symm.trans hknown
    exact hhere
  · rw [hown id' name', if_neg hother]
  · have hk : n.scopes[n.scopes.size - 1]? = some (.object id) := getElem?_of_back? (hscopes ▸ hinner)
    refine ⟨findScope_eq hk hhere (fun j scope hj hscope => ?_) hx, property_eq hhere hx⟩
    have hlt := (Array.getElem?_eq_some_iff.mp hscope).1
    omega

theorem OffersName.create (h : m.OffersName id name key) (hs : m.heap.Sound) (hu : m.heap.Unmarked)
    (hstack : m.stack = (stack.push key).push (.object id))
    (hcarry : Machine.carryOut env c .create firstEnd next m = .ok flow n) (ha : n.heap.Addressable) :
    m.Declares env id name n := by
  simp only [Machine.carryOut] at hcarry
  obtain ⟨v, l, hpop, hcarry⟩ := bind_eq_ok.mp hcarry
  obtain ⟨w, l', hpop', hcarry⟩ := bind_eq_ok.mp hcarry
  simp only [pop, hstack, Array.back?_push, Array.pop_push] at hpop
  cases hpop
  simp only [pop, Array.back?_push, Array.pop_push] at hpop'
  cases hpop'
  obtain ⟨u, l'', hdeclare, hpure⟩ := bind_eq_ok.mp hcarry
  cases hpure
  obtain ⟨hfresh, hknown, hothers, hreads⟩ : ({ m with stack := stack } : Machine W).Declares env id name _ :=
    declares_of_declare hs hu h.text h.inner hdeclare ha
  exact ⟨hfresh, hknown, hothers, hreads⟩

/-- The three instructions of a declaration, carried out one after the other. -/
theorem declares_of_passes {k s : Machine W} {ck cs : Cursor} {end₁ end₂ end₃ next₁ next₂ next₃ : Nat}
    (hm : Reachable env m) (htext : m.collectIfNeeded.KeepsText name) (hinner : m.scopes.back? = some (.object id))
    (hread : Code.Decoded.read c.code c.pos = .instr (.pushStr name) end₁ next₁) (hstr : m.PassesTo env c k ck)
    (hread₂ : Code.Decoded.read c.code next₁ = .instr .pushScope end₂ next₂) (hscope : k.PassesTo env ck s cs)
    (hread₃ : Code.Decoded.read c.code next₂ = .instr .create end₃ next₃) (hcreate : s.PassesTo env cs n c')
    (ha : n.heap.Addressable) : s.collectIfNeeded.Declares env id name n ∧ c'.pos = next₃ := by
  obtain ⟨hcarry, rfl⟩ := hstr.carryOut hread rfl
  obtain ⟨hcarry₂, rfl⟩ := hscope.carryOut hread₂ rfl
  obtain ⟨hcarry₃, rfl⟩ := hcreate.carryOut hread₃ rfl
  have hmiddle : Leads env k s := (leads_collectIfNeeded k).trans hscope.leads
  have hrest : Leads env s n := (leads_collectIfNeeded s).trans hcreate.leads
  have hk := hm.on_way ((leads_collectIfNeeded m).trans hstr.leads) (hmiddle.trans hrest) ha
  have hs := hk.on_way hmiddle hrest ha
  have hlast := hs.on_way (leads_collectIfNeeded s) hcreate.leads ha
  -- the name is put on the stack, the scope on top of it, and collections move them
  obtain ⟨key, hstack, hnames⟩ := htext.offersName (back?_collectIfNeeded hinner) hcarry
  obtain ⟨g, hg, -, hnames⟩ := hnames.collectIfNeeded hk.sound.1 hk.sound.2
  obtain ⟨hstack₂, hnames⟩ := hnames.pushScope hcarry₂
  obtain ⟨g', hg', hobject, hnames⟩ := hnames.collectIfNeeded hs.sound.1 hs.sound.2
  rw [hstack₂, hg, hstack, Array.map_push, Array.map_push, Array.map_push, hobject] at hg'
  exact ⟨hnames.create hlast.sound.1 hlast.sound.2 hg' hcarry₃ ha, rfl⟩

/-! ## Scopes that are opened -/

/-- A scope is opened as an object with nothing in it. -/
theorem exists_opened (hgo : m.interrupted = false)
    (hread : Code.Decoded.read c.code c.pos = .instr .newScope firstEnd next) :
    ∃ n id, m.PassesTo env c n { c with pos := next, previous := .newScope }
      ∧ n.frames = m.collectIfNeeded.frames ∧ n.scopes = m.collectIfNeeded.scopes.push (.object id)
      ∧ (Reachable env m → n.heap.Addressable → ∀ name, n.heap.getOwn id name = .ok none) := by
  obtain ⟨heap, id, hnew⟩ : ∃ heap id, m.collectIfNeeded.heap.newCell .plain = (heap, id) := ⟨_, _, rfl⟩
  let n : Machine W := { m.collectIfNeeded with
    heap := heap, scopes := m.collectIfNeeded.scopes.push (.object id) }
  have hpass : m.PassesTo env c n { c with pos := next, previous := .newScope } := by
    refine ⟨hgo, ?_⟩
    rw [advance_eq env hread]
    simp only [carryOut, openScope, bind_eq, alloc, Heap.newObject, hnew]
    rfl
  refine ⟨n, id, hpass, rfl, rfl, fun hm ha name => ?_⟩
  have hbefore := hm.on_way (leads_collectIfNeeded m) hpass.leads ha
  have hbehind := hbefore.leads hpass.leads ha
  have hheap : heap = (m.collectIfNeeded.heap.newCell .plain).1 := by rw [hnew]
  have hid : id = (m.collectIfNeeded.heap.newCell .plain).2 := by rw [hnew]
  have hcell : heap.objects.get? id.cell = some ⟨#[], .plain⟩ := by
    rw [hheap, Heap.get?_objects_newCell hbefore.sound.1 (hheap ▸ ha), if_pos hid]
  rw [show n.heap.getOwn id name = _ from hbehind.sound.1.getOwn_eq hcell name]
  rfl

end Machine

namespace Moment

open Machine (Spared)

variable {W : Type} {env : Embedding W} {m₀ m₁ m : Machine W} {c₀ c₁ c : Cursor} {entries₀ entries₁ entries : List Depths}
  {K₀ K₁ K : List (Waiting W)}

/-- Where the code has one scope more open than where a scope was opened, in the same call and while that scope is open,
that scope is the innermost one. -/
theorem StillOpen.innermost {T : Code.Plans} {P : Code.Program} {id : ObjectId} {i j : Nat} (henv : env.Steady)
    (hT : T.Describe P) (hpart : m.program.PartOf P) (hoccurs : (going (.running m₀ c₀ entries₀) K₀).Occurs env)
    (hnext : Next env (going (.running m₀ c₀ entries₀) K₀) (going (.running m₁ c₁ entries₁) K₁))
    (hcalls : m₁.frames.size = m₀.frames.size) (hopened : m₁.scopes.size = m₀.scopes.size + 1)
    (hid : m₁.scopes.back? = some (.object id))
    (hstill : StillOpen env m₁.frames.size m₁.scopes.size (going (.running m₁ c₁ entries₁) K₁)
      (going (.running m c entries) K))
    (hsame : m.frames.size = m₁.frames.size) (hi : i < (T c₀.code).items.length) (hpos₀ : c₀.pos = (T c₀.code).place i)
    (hj : j < (T c.code).items.length) (hpos : c.pos = (T c.code).place j)
    (hnests : ((T c.code).nests j).scopes = ((T c₀.code).nests i).scopes + 1) :
    m.scopes.back? = some (.object id) := by
  have hoccurs₁ := hoccurs.later (.single (.inl hnext))
  have hoccurs₂ := hoccurs₁.later hstill.later
  have htidy₁ := (hoccurs₁.grows henv).2
  have hpart₁ : m₁.program.PartOf P := (Later.grows henv hstill.later htidy₁).1.partOf.trans hpart
  have hpart₀ : m₀.program.PartOf P := (hnext.grows henv (hoccurs.grows henv).2).1.partOf.trans hpart₁
  obtain ⟨frame₀, hback₀, hscopes₀⟩ := (hoccurs.nested henv hT hpart₀).scopes_eq hT hi hpos₀
  obtain ⟨frame, hback, hscopes⟩ := (hoccurs₂.nested henv hT hpart).scopes_eq hT hj hpos
  -- the call is the same, so it has as many scopes below it as before
  have hholds₁ : m₁.Holds m₁.frames.size m₁.scopes.size := Machine.holds_iff.mpr ⟨Nat.le_refl _, Nat.le_refl _⟩
  have hspared : Spared (Depths.floor m₁.frames.size m₁.scopes.size) m₁ m := hstill.spared henv htidy₁ hholds₁
  have hholds₀ : m₁.Holds m₀.frames.size m₀.scopes.size := Machine.holds_iff.mpr ⟨by omega, by omega⟩
  have hspared₀ : Spared (Depths.floor m₀.frames.size m₀.scopes.size) m₀ m₁ :=
    hnext.spared (hoccurs.grows henv).2 (Machine.holds_iff.mpr ⟨Nat.le_refl _, Nat.le_refl _⟩) hholds₀
  have hpositive : 0 < m₀.frames.size := by
    rw [Array.size_pos_iff]
    intro hempty
    rw [hempty] at hback₀
    cases hback₀
  have hframe₀ := hspared₀.frame (show m₀.frames.size - 1 < m₀.frames.size by omega)
  have hframe := hspared.frame (show m₀.frames.size - 1 < m₁.frames.size by omega)
  have htop : m.frames[m₀.frames.size - 1]? = some frame := by
    rw [← hcalls, ← hsame]
    exact Machine.getElem?_of_back? hback
  rw [hframe₀, htop, Machine.getElem?_of_back? hback₀, Option.map_some, Option.map_some, Option.some.injEq] at hframe
  have hbelow : frame.scopes = frame₀.scopes := congrArg Return.scopes hframe
  -- so the innermost scope is the one that was opened
  have hsize : m.scopes.size = m₁.scopes.size := by omega
  rw [Array.back?_eq_getElem?, hsize]
  exact hspared.scope (show m₁.scopes.size - 1 < m₁.scopes.size by omega) (Machine.getElem?_of_back? hid)

/-- A loop opens a scope with nothing in it, and so does a block. As long as that scope is open, a variable that is
declared directly in the loop or the block is declared in that scope: it is undefined where the scope does not have it
yet, and otherwise what it was. -/
theorem declaration_in_shared_scope (henv : env.Steady) (hfollows : env.Follows) {filename source : String}
    {width : Nat} {unit : Array UInt8} {script : Source.Script} (hcompile : Code.compile filename source width = .ok unit)
    (hparse : Source.parseScript source = .ok script) :
    ∃ place, Code.Placed script unit place ∧ ∀ site ∈ Code.Sites.body script.body 0,
      ∀ {m₀ : Machine W} {c₀ : Cursor} {entries₀ : List Depths} {K : List (Waiting W)},
        (going (.running m₀ c₀ entries₀) K).Arises env → c₀.code = unit → c₀.pos = place site.scope →
        m₀.interrupted = false →
        ∃ m₁ c₁ entries₁ id, Next env (going (.running m₀ c₀ entries₀) K) (going (.running m₁ c₁ entries₁) K)
          ∧ m₁.scopes.size = m₀.scopes.size + 1 ∧ m₁.scopes.back? = some (.object id)
          ∧ (m₁.heap.Addressable → ∀ name, m₁.heap.getOwn id name = .ok none)
          ∧ ∀ {m : Machine W} {c : Cursor} {entries : List Depths} {K' : List (Waiting W)},
              StillOpen env m₁.frames.size m₁.scopes.size (going (.running m₁ c₁ entries₁) K)
                (going (.running m c entries) K') →
              m.frames.size = m₁.frames.size → c.code = unit → c.pos = place site.start →
              m.program.Sourced → m.program.size ≤ UInt64.size →
              m.scopes.back? = some (.object id)
              ∧ ∀ {k s n : Machine W} {ck cs c' : Cursor}, m.collectIfNeeded.KeepsText site.name →
                  m.PassesTo env c k ck → k.PassesTo env ck s cs → s.PassesTo env cs n c' → n.heap.Addressable →
                  s.collectIfNeeded.Declares env id site.name n ∧ c'.pos = place (site.start + 3) := by
  obtain ⟨place, hplaced⟩ := Code.exists_placed hcompile hparse
  obtain ⟨nests, hnests⟩ := Code.exists_nests script
  refine ⟨place, hplaced, fun site hsite m₀ c₀ entries₀ K harises hcode₀ hpos₀ hgo => ?_⟩
  obtain ⟨hdepth, hopen, hdeclare⟩ := hnests.sites site hsite
  have hitem₀ : (Code.Shape.script script)[site.scope]? = some (.plain .newScope) := hopen.get Nat.zero_lt_one
  have hitem (j : Nat) (hj : j < 3) : (Code.Shape.script script)[site.start + j]? = (Code.Shape.declare site.name)[j]? :=
    hdeclare.get hj
  obtain ⟨end₀, hread₀⟩ := hplaced.stands.read hitem₀
  rw [← hcode₀, ← hpos₀] at hread₀
  obtain ⟨m₁, id, hpass, hframes, hscopes, hempty⟩ := @Machine.exists_opened _ env _ _ _ _ hgo hread₀
  have hnext : Next env (going (.running m₀ c₀ entries₀) K) _ := .goOn hpass.1 hpass.2
  obtain ⟨-, hskeleton⟩ := Machine.collectIfNeeded_spares m₀ (Depths.Le.refl _)
  have hcalls : m₁.frames.size = m₀.frames.size := by
    have hdepths := congrArg Skeleton.depths hskeleton
    rw [Machine.depths_skeleton, Machine.depths_skeleton] at hdepths
    rw [hframes]
    exact congrArg Depths.calls hdepths
  have hopened : m₁.scopes.size = m₀.scopes.size + 1 := by
    rw [hscopes, Array.size_push, show m₀.collectIfNeeded.scopes.size = _ from congrArg Skeleton.scopes hskeleton]
    rfl
  have hinnermost : m₁.scopes.back? = some (.object id) := by rw [hscopes, Array.back?_push]
  refine ⟨m₁, _, _, id, hnext, hopened, hinnermost, fun ha => ?_, ?_⟩
  · have hleads : Machine.Leads env m₀ m₁ := (Machine.leads_collectIfNeeded m₀).trans hpass.leads
    exact hempty (harises.reachable hfollows ((hleads.abides Heap.course_keeps).addressable ha)) ha
  intro m c entries K' hstill hsame hcode hpos hsourced hsmall
  have harises' := (harises.later (.single (.inl hnext))).later hstill.later
  have hcommitted := (harises'.occurs.grows henv).1.committed Code.Program.committed_empty
  obtain ⟨T, hT⟩ := Code.Program.exists_plans hcommitted hsourced hsmall
  have hplan : (⟨script, place, nests⟩ : Code.Plan).Of unit := ⟨hplaced, hnests⟩
  have hdescribe := hT.update hplan
  have hunit : Function.update T unit ⟨script, place, nests⟩ unit = ⟨script, place, nests⟩ := Function.update_self _ _ _
  have hlast : m.scopes.back? = some (.object id) := by
    refine hstill.innermost henv hdescribe (.refl _) harises.occurs hnext hcalls hopened hinnermost hsame
      (i := site.scope) (j := site.start) ?_ ?_ ?_ ?_ ?_
    · rw [hcode₀, hunit]
      exact (List.getElem?_eq_some_iff.mp hitem₀).1
    · rw [hcode₀, hunit]
      exact hpos₀
    · rw [hcode, hunit]
      exact (List.getElem?_eq_some_iff.mp (hitem 0 (by decide))).1
    · rw [hcode, hunit]
      exact hpos
    · rw [hcode, hcode₀, hunit]
      exact hdepth
  refine ⟨hlast, fun {k s n ck cs c'} htext hstr hscope hcreate ha => ?_⟩
  obtain ⟨end₁, hread₁⟩ := hplaced.stands.read (hitem 0 (by decide))
  obtain ⟨end₂, hread₂⟩ := hplaced.stands.read (hitem 1 (by decide))
  obtain ⟨end₃, hread₃⟩ := hplaced.stands.read (hitem 2 (by decide))
  rw [← hcode] at hread₁ hread₂ hread₃
  have hleads : Machine.Leads env m n :=
    ((Machine.leads_collectIfNeeded m).trans hstr.leads).trans (((Machine.leads_collectIfNeeded k).trans hscope.leads).trans
      ((Machine.leads_collectIfNeeded s).trans hcreate.leads))
  have hm := harises'.reachable hfollows ((hleads.abides Heap.course_keeps).addressable ha)
  exact Machine.declares_of_passes hm htext hlast (hpos ▸ hread₁) hstr hread₂ hscope hread₃ hcreate ha

/-! ## Loops that store what they declare -/

/-- The moment some steps later, if no fewer calls and scopes were open at any moment since. -/
def stays? (env : Embedding W) (calls scopes : Nat) : Nat → Moment W → Option (Moment W)
  | 0, M => some M
  | steps + 1, M => (M.next? env).bind fun M' =>
    if calls ≤ M'.machine.frames.size ∧ scopes ≤ M'.machine.scopes.size then stays? env calls scopes steps M' else none

theorem stillOpen_of_stays {calls scopes steps : Nat} {M M' : Moment W}
    (h : stays? env calls scopes steps M = some M') : StillOpen env calls scopes M M' := by
  induction steps generalizing M with
  | zero =>
    cases h
    exact .refl
  | succ steps ih =>
    obtain ⟨M₁, hnext, hrest⟩ := Option.bind_eq_some_iff.mp h
    split at hrest
    · exact .head ⟨.inl (next_iff.mpr hnext), ‹_›⟩ (ih hrest)
    · cases hrest

/-- The run that goes on, if one does. -/
def running? : Moment W → Option (Machine W × Cursor)
  | going (.running m c _) _ => some (m, c)
  | _ => none

theorem exists_running {M : Moment W} (h : M.running? = some (m, c)) : ∃ entries K, M = going (.running m c entries) K := by
  unfold running? at h
  split at h <;> cases h
  exact ⟨_, _, rfl⟩

theorem Next.passesTo {n : Machine W} {c' : Cursor}
    (h : Next env (going (.running m c entries) K) (going (.running n c' entries₁) K₁)) : m.PassesTo env c n c' := by
  cases h with
  | goOn hgo hadvance => exact ⟨hgo, hadvance⟩

end Moment

namespace Code

/-- The place behind some instructions from a place on. -/
def behind (code : Array UInt8) (pos : Nat) : Nat → Nat
  | 0 => pos
  | i + 1 =>
    match Decoded.read code (behind code pos i) with
    | .instr _ _ next => next
    | _ => 0

/-- Where items stand is told by the code. -/
theorem Stands.place_eq {code : Array UInt8} {items : List Item} {place : Nat → Nat} (h : Stands code items place)
    {i : Nat} (hi : i ≤ items.length) : place i = behind code (place 0) i := by
  induction i with
  | zero => rfl
  | succ i ih =>
    obtain ⟨_, _, hread⟩ := (h.read (List.getElem?_eq_getElem hi)).exists_instr
    rw [behind, ← ih (Nat.le_of_lt hi), hread]

end Code

namespace Machine

open Moment (after? running? stays? going)

theorem eq_ok_of_toOption {ε α : Type} {x : Except ε α} {a : α} (h : x.toOption = some a) : x = .ok a := by
  cases x <;> cases h
  rfl

/-- A loop that declares a variable and stores in it. -/
def storing : String := "for(;;)\x7blet x;x=1\x7d"

/-- Where the scope of the loop is opened, and where the variable is declared. -/
def storingSite : Code.Site := ⟨0, 9, Text.bytesOf "x"⟩

/-- The moment of a session with this loop that comes after some steps. -/
def storing? (steps : Nat) : Option (Moment Unit) :=
  match new {} ⟨"", none⟩ () with
  | .ok m => after? noEmbedding steps (going (.action m (m.exec "t.js" storing)) [])
  | .error _ => none

theorem noEmbedding_steady : noEmbedding.Steady where
  natives f hf := by simp [noEmbedding] at hf
  nativesHonest f hf := by simp [noEmbedding] at hf
  host host hhost := by cases hhost
  hostHonest host hhost := by cases hhost

theorem noEmbedding_follows : noEmbedding.Follows where
  natives f hf := by simp [noEmbedding] at hf
  host host hhost := by cases hhost

theorem arises_of_storing {steps : Nat} {M : Moment Unit} (h : storing? steps = some M) : M.Arises noEmbedding := by
  unfold storing? at h
  split at h
  · rename_i m hnew
    refine ⟨m, _, ⟨⟨_, _, _, hnew⟩, tidy_exec m _ _, fun S => honest_exec (within_new hnew) _ _⟩, ?_,
      (Moment.leads_of_after h).later⟩
    exact follows_entry (follows_runScript _ _) m
  · cases h

/-- Handles have room for the numbers of slots. -/
def addressable (m : Machine Unit) : Bool :=
  decide (m.heap.objects.cells.size ≤ UInt32.size) && decide (m.heap.properties.cells.size ≤ UInt32.size)
    && decide (m.heap.signatures.cells.size ≤ UInt32.size)

theorem addressable_of {m : Machine Unit} (h : addressable m = true) : m.heap.Addressable := by
  simp only [addressable, Bool.and_eq_true, decide_eq_true_eq] at h
  exact ⟨h.1.1, h.1.2, h.2⟩

/-- A moment is at the place of an item. -/
def isAt (unit : Array UInt8) (i : Nat) (M : Moment Unit) : Bool :=
  M.running?.any fun r => r.2.code == unit
    && r.2.pos == Code.behind unit ((Code.Header.read? unit).elim 0 Code.Header.codeStart) i

/-- A declaration is carried out, and the variable is there already. -/
def redeclares (M : Moment Unit) : Bool :=
  M.running?.any fun r => (M.next? noEmbedding).any fun M₁ => M₁.running?.isSome
      && (M₁.next? noEmbedding).any fun M₂ =>
        (M₂.running?.any fun r₂ => (r.1.scopes.back?.bind Value.propertyHolder?).any fun id =>
          (r₂.1.collectIfNeeded.heap.getOwn id storingSite.name).toOption == some (some (.ofNat 1)))
        && (M₂.next? noEmbedding).any fun M₃ => M₃.running?.any fun r₃ => addressable r₃.1

/-- The loop is entered, its second round comes to the declaration, and the variable is there already. -/
def storesAgain (unit : Array UInt8) (M₀ : Moment Unit) : Bool :=
  isAt unit 0 M₀ && (M₀.running?.any fun r => !r.1.interrupted)
    && (M₀.next? noEmbedding).any fun M₁ => addressable M₁.machine
      && (stays? noEmbedding M₁.machine.frames.size M₁.machine.scopes.size 21 M₁).any fun M =>
        M.machine.frames.size == M₁.machine.frames.size && isAt unit 9 M && hasOnly unit M.machine && redeclares M

/-- The declaration is one that is directly in a loop. -/
def isSite (script : Source.Script) : Bool :=
  decide (storingSite.start ≤ (Code.Shape.script script).length)
    && (Code.Sites.body script.body 0).any fun site =>
      site.scope == storingSite.scope && site.start == storingSite.start && site.name == storingSite.name

theorem mem_of_isSite {script : Source.Script} (h : isSite script = true) :
    storingSite ∈ Code.Sites.body script.body 0 ∧ storingSite.start ≤ (Code.Shape.script script).length := by
  simp only [isSite, List.any_eq_true, Bool.and_eq_true, beq_iff_eq, decide_eq_true_eq] at h
  obtain ⟨hlength, ⟨scope, start, name⟩, hmem, ⟨rfl, rfl⟩, rfl⟩ := h
  exact ⟨hmem, hlength⟩

theorem exists_of_isAt {unit : Array UInt8} {i : Nat} {M : Moment Unit} (h : isAt unit i M = true)
    {script : Source.Script} {place : Nat → Nat} (hplaced : Code.Placed script unit place)
    (hi : i ≤ (Code.Shape.script script).length) :
    ∃ m c entries K, M = going (.running m c entries) K ∧ c.code = unit ∧ c.pos = place i := by
  simp only [isAt, Option.any_eq_true, Bool.and_eq_true, beq_iff_eq] at h
  obtain ⟨⟨m, c⟩, hrun, hcode, hpos⟩ := h
  obtain ⟨entries, K, rfl⟩ := Moment.exists_running hrun
  obtain ⟨header, hheader, hfirst⟩ := hplaced.first
  rw [hheader] at hpos
  refine ⟨m, c, entries, K, rfl, hcode, ?_⟩
  rw [hplaced.stands.place_eq hi, hfirst]
  exact hpos

/-- In its second round the loop finds what it stored in the first one. -/
theorem declaration_in_shared_scope_storing : ∃ (unit : Array UInt8) (script : Source.Script) (m₀ m₁ m s n : Machine Unit)
    (c₀ c₁ c cs c' : Cursor) (entries₀ entries₁ entries : List Depths) (K K' : List (Waiting Unit)) (id : ObjectId),
    noEmbedding.Steady ∧ noEmbedding.Follows ∧ Code.compile "t.js" storing 1 = .ok unit
      ∧ Source.parseScript storing = .ok script ∧ storingSite ∈ Code.Sites.body script.body 0
      ∧ (going (.running m₀ c₀ entries₀) K).Arises noEmbedding ∧ m₀.interrupted = false
      ∧ (∀ name, m₁.heap.getOwn id name = .ok none)
      ∧ Moment.StillOpen noEmbedding m₁.frames.size m₁.scopes.size (going (.running m₁ c₁ entries₁) K)
        (going (.running m c entries) K')
      ∧ m.scopes.back? = some (.object id) ∧ s.PassesTo noEmbedding cs n c'
      ∧ s.collectIfNeeded.Declares noEmbedding id storingSite.name n
      ∧ n.heap.getOwn id storingSite.name = .ok (some (.ofNat 1)) := by
  have hcheck : ((Code.compile "t.js" storing 1).toOption.any fun unit =>
      (Source.parseScript storing).toOption.any fun script =>
        isSite script && (storing? 3).any (storesAgain unit)) = true := by decide +kernel
  obtain ⟨unit, hunit, hcheck⟩ := (Option.any_eq_true _ _).mp hcheck
  obtain ⟨script, hscript, hcheck⟩ := (Option.any_eq_true _ _).mp hcheck
  obtain ⟨hsite, hcheck⟩ := (Bool.and_eq_true _ _).mp hcheck
  obtain ⟨M₀, hM₀, hcheck⟩ := (Option.any_eq_true _ _).mp hcheck
  obtain ⟨hmem, hlength⟩ := mem_of_isSite hsite
  have hcompile := eq_ok_of_toOption hunit
  have hparse := eq_ok_of_toOption hscript
  obtain ⟨place, hplaced, hall⟩ :=
    Moment.declaration_in_shared_scope noEmbedding_steady noEmbedding_follows hcompile hparse
  simp only [storesAgain, Bool.and_eq_true, Option.any_eq_true, beq_iff_eq, Bool.not_eq_true'] at hcheck
  obtain ⟨⟨hfirst, ⟨m₀, c₀⟩, hrun₀, hgo⟩, M₁, hnext₁, haddr₁, M, hstays, ⟨⟨hframes, hsecond⟩, honly⟩, hagain⟩ := hcheck
  obtain ⟨m₀, c₀, entries₀, K, rfl, hcode₀, hpos₀⟩ := exists_of_isAt hfirst hplaced (Nat.zero_le _)
  cases hrun₀
  have harises := arises_of_storing hM₀
  -- the loop is entered
  obtain ⟨m₁, c₁, entries₁, id, hnext, -, -, hempty, hrounds⟩ := hall _ hmem harises hcode₀ hpos₀ hgo
  cases (Moment.next_iff.mp hnext).symm.trans hnext₁
  have hstill := Moment.stillOpen_of_stays hstays
  -- and comes to the declaration a second time
  obtain ⟨m, c, entries, K', rfl, hcode, hpos⟩ := exists_of_isAt hsecond hplaced hlength
  obtain ⟨hsourced, hsmall⟩ := sourced_of_hasOnly hunit honly
  obtain ⟨hinner, hdeclares⟩ := hrounds hstill hframes hcode hpos hsourced hsmall
  simp only [redeclares, Bool.and_eq_true, Option.any_eq_true, beq_iff_eq, Option.isSome_iff_exists] at hagain
  obtain ⟨⟨_, _⟩, hrun, Mk, hk, ⟨⟨k, ck⟩, hrunk⟩, Ms, hs, ⟨⟨s, cs⟩, hruns, id', hid', hknown⟩, Mn, hn,
    ⟨n, c'⟩, hrunn, haddr⟩ := hagain
  cases hrun
  obtain ⟨_, _, rfl⟩ := Moment.exists_running hrunk
  obtain ⟨_, _, rfl⟩ := Moment.exists_running hruns
  obtain ⟨_, _, rfl⟩ := Moment.exists_running hrunn
  have hpasses := (Moment.next_iff.mpr hn).passesTo
  obtain ⟨hdeclared, -⟩ := hdeclares (.inl (by decide +kernel)) (Moment.next_iff.mpr hk).passesTo
    (Moment.next_iff.mpr hs).passesTo hpasses (addressable_of haddr)
  have hsame : id' = id := by
    rw [hinner] at hid'
    exact (Option.some.inj hid').symm
  subst hsame
  exact ⟨unit, script, m₀, m₁, m, s, n, c₀, c₁, c, cs, c', entries₀, entries₁, entries, K, K', id', noEmbedding_steady,
    noEmbedding_follows, hcompile, hparse, hmem, harises, hgo, hempty (addressable_of haddr₁), hstill, hinner, hpasses,
    hdeclared, hdeclared.known _ (eq_ok_of_toOption hknown)⟩

/-- A loop that stores in the first round, and whose second round returns what it has just declared. -/
def declaring : String := "let s;while(1)\x7blet x;if(s)return x;s=x=1\x7d"

/-- What the second round declares is not undefined, but what the first one stored. -/
theorem second_round_reads_stored : resultOf declaring = .ok (.ofNat 1) ∧ Value.ofNat 1 ≠ .undefined := by
  decide +kernel

end Machine

end ScriptEngine
