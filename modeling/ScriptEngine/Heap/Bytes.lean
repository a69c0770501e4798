import Std.Data.HashMap.Lemmas
/-!
The bytes of an array buffer.

A buffer begins as zeros, and scripts write few of its bytes, so only those that were written are kept. How
many bytes there are is a machine word.
-/

namespace ScriptEngine

/-- A row of bytes. Those that were never written are zero. -/
structure Bytes where
  extent : UInt64
  written : Std.HashMap Nat UInt8

namespace Bytes

/-- Zeros, as many as a word can count. -/
def zeros (size : Nat) : Bytes :=
  ⟨.ofNatClamp size, ∅⟩

/-- The bytes of an array. -/
def ofArray (bytes : Array UInt8) : Bytes :=
  ⟨.ofNatClamp bytes.size, .ofList (bytes.toList.zipIdx.map Prod.swap)⟩

instance : Coe (Array UInt8) Bytes := ⟨ofArray⟩

def size (b : Bytes) : Nat :=
  b.extent.toNat

/-- The byte at a place. -/
def byte? (b : Bytes) (i : Nat) : Option UInt8 :=
  if i < b.size then some (b.written.getD i 0) else none

/-- The bytes with one of them written. -/
def set (b : Bytes) (i : Nat) (byte : UInt8) : Bytes :=
  { b with written := b.written.insert i byte }

/-- The bytes from `start` on up to `stop`. -/
def between (b : Bytes) (start stop : Nat) : List UInt8 :=
  (List.range' start (stop - start)).filterMap b.byte?

def toList (b : Bytes) : List UInt8 :=
  b.between 0 b.size

variable {b : Bytes} {i : Nat}

theorem size_lt (b : Bytes) : b.size < UInt64.size :=
  b.extent.toNat_lt_size

theorem toNat_ofNatClamp {n : Nat} (h : n < UInt64.size) : (UInt64.ofNatClamp n).toNat = n := by
  rw [UInt64.ofNatClamp, dif_pos h]
  exact UInt64.toNat_ofNatLT ..

theorem size_zeros {n : Nat} (h : n < UInt64.size) : (zeros n).size = n :=
  toNat_ofNatClamp h

theorem size_ofArray {bytes : Array UInt8} (h : bytes.size < UInt64.size) : (ofArray bytes).size = bytes.size :=
  toNat_ofNatClamp h

@[simp] theorem size_set (b : Bytes) (i : Nat) (byte : UInt8) : (b.set i byte).size = b.size := rfl

theorem byte?_zeros {n : Nat} (h : i < (zeros n).size) : (zeros n).byte? i = some 0 := by
  rw [byte?, if_pos h]
  exact congrArg some Std.HashMap.getD_empty

theorem byte?_ofArray {bytes : Array UInt8} (h : bytes.size < UInt64.size) : (ofArray bytes).byte? i = bytes[i]? := by
  unfold byte?
  rw [size_ofArray h]
  split
  · rename_i hi
    have hmem : (i, bytes[i]) ∈ bytes.toList.zipIdx.map Prod.swap :=
      List.mem_map.mpr ⟨(bytes[i], i), List.mem_zipIdx_iff_getElem?.mpr (by simp [hi]), rfl⟩
    have hdistinct : (bytes.toList.zipIdx.map Prod.swap).Pairwise fun x y => (x.1 == y.1) = false := by
      refine List.pairwise_map.mpr (List.pairwise_iff_getElem.mpr fun j k hj hk hlt => ?_)
      simpa using Nat.ne_of_lt hlt
    rw [Array.getElem?_eq_getElem hi]
    exact congrArg some (Std.HashMap.getD_ofList_of_mem BEq.rfl hdistinct hmem)
  · rename_i hi
    exact (Array.getElem?_eq_none (Nat.le_of_not_lt hi)).symm

/-- Each place that there is has a byte. -/
theorem exists_byte? (h : i < b.size) : ∃ byte, b.byte? i = some byte :=
  ⟨_, if_pos h⟩

theorem byte?_of_le (h : b.size ≤ i) : b.byte? i = none :=
  if_neg (Nat.not_lt.mpr h)

theorem byte?_set_self (h : i < b.size) (byte : UInt8) : (b.set i byte).byte? i = some byte := by
  rw [byte?, size_set, if_pos h]
  exact congrArg some Std.HashMap.getD_insert_self

theorem byte?_set_of_ne {j : Nat} (h : j ≠ i) (byte : UInt8) : (b.set i byte).byte? j = b.byte? j := by
  have hwritten : (b.set i byte).written.getD j 0 = b.written.getD j 0 := by
    rw [set, Std.HashMap.getD_insert, if_neg (by simpa using h.symm)]
  rw [byte?, byte?, size_set, hwritten]

end Bytes

end ScriptEngine
