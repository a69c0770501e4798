/-!
Edits of flat buffers of bytes.

`writeOver` writes bytes in a buffer, `move` moves some of its own, and `splice` puts more bytes in place of
fewer. Each is stated as an equation on the list of the bytes.
-/

namespace ScriptEngine.Buffer

/-- The byte at a place. -/
def byte? (data : ByteArray) (i : Nat) : Option UInt8 :=
  if h : i < data.size then some data[i] else none

/-- The `count` bytes from `start` on in front of others. -/
def prepend (data : ByteArray) (start : Nat) (others : List UInt8) : Nat → List UInt8
  | 0 => others
  | count + 1 =>
    if h : start + count < data.size then prepend data start (data[start + count] :: others) count
    else prepend data start others count

/-- The bytes from `start` on up to `stop`. -/
def between (data : ByteArray) (start stop : Nat) : List UInt8 :=
  prepend data start [] (min stop data.size - start)

/-- The first bytes, as they are if that is all. -/
def front (data : ByteArray) (size : Nat) : ByteArray :=
  if size = data.size then data else data.extract 0 size

/-- The buffer with bytes written over those from `start` on, and on behind the end. -/
def writeOver (data : ByteArray) (start : Nat) (bytes : ByteArray) : ByteArray :=
  bytes.copySlice 0 data start bytes.size false

/-- The buffer with `count` bytes from `source` on copied to `dest` on. -/
def move (data : ByteArray) (source dest count : Nat) : ByteArray :=
  let bytes := data.extract source (source + count)
  writeOver data dest bytes

/-- The buffer with bytes in place of those from `start` to `stop`, which are no more. -/
def splice (data : ByteArray) (start stop : Nat) (bytes : List UInt8) : ByteArray :=
  let behind := start + bytes.length
  if behind = stop then writeOver data start bytes.toByteArray
  else
    let tail := data.extract stop data.size
    writeOver (writeOver data start bytes.toByteArray) behind tail

theorem byte?_eq (data : ByteArray) (i : Nat) : byte? data i = data.data.toList[i]? := by
  unfold byte?
  split
  case isTrue h =>
    have hlength : i < data.data.toList.length := h
    rw [List.getElem?_eq_getElem hlength]
    rfl
  case isFalse h =>
    have hlength : data.data.toList.length ≤ i := by
      have hsize : data.data.toList.length = data.size := rfl
      omega
    rw [List.getElem?_eq_none hlength]

theorem prepend_eq (data : ByteArray) (start : Nat) (others : List UInt8) (count : Nat)
    (h : start + count ≤ data.size) :
    prepend data start others count = (data.data.toList.drop start).take count ++ others := by
  induction count generalizing others with
  | zero => simp [prepend]
  | succ count ih =>
    have hlast : start + count < data.size := by omega
    have hlength : count < (data.data.toList.drop start).length := by
      have hsize : data.data.toList.length = data.size := rfl
      rw [List.length_drop]
      omega
    rw [prepend, dif_pos hlast, ih _ (by omega), List.take_succ_eq_append_getElem hlength]
    simp [ByteArray.getElem_eq_getElem_data]

theorem between_eq (data : ByteArray) (start stop : Nat) :
    between data start stop = (data.data.toList.take stop).drop start := by
  have hsize : data.data.toList.length = data.size := rfl
  unfold between
  by_cases hstart : start ≤ data.size
  · rw [prepend_eq data start [] _ (by omega), List.append_nil, List.drop_take]
    by_cases hstop : stop ≤ data.size
    · rw [Nat.min_eq_left hstop]
    · rw [List.take_of_length_le (by simp [hsize]; omega),
        List.take_of_length_le (by simp [hsize]; omega)]
  · have hcount : min stop data.size - start = 0 := by omega
    rw [hcount, prepend, List.drop_of_length_le]
    simp [hsize]
    omega

theorem toList_front (data : ByteArray) (size : Nat) :
    (front data size).data.toList = data.data.toList.take size := by
  have hsize : data.data.toList.length = data.size := rfl
  unfold front
  split
  case isTrue h => rw [List.take_of_length_le (by simp [hsize, h])]
  case isFalse => simp

theorem toList_writeOver (data : ByteArray) (start : Nat) (bytes : ByteArray) :
    (writeOver data start bytes).data.toList
      = data.data.toList.take start ++ bytes.data.toList
        ++ data.data.toList.drop (start + bytes.size) := by
  simp [writeOver, ByteArray.copySlice, List.take_of_length_le]

/-- A move writes what was there before it. -/
theorem toList_move (data : ByteArray) (source dest count : Nat)
    (hsource : source + count ≤ data.size) :
    (move data source dest count).data.toList
      = data.data.toList.take dest ++ (data.data.toList.drop source).take count
        ++ data.data.toList.drop (dest + count) := by
  have hcount : (data.extract source (source + count)).size = count := by
    simp
    omega
  rw [move, toList_writeOver, hcount]
  simp

/-- A splice changes the bytes from `start` to `stop` and nothing else. -/
theorem toList_splice (data : ByteArray) (start stop : Nat) (bytes : List UInt8) (hstart : start ≤ stop)
    (hstop : stop ≤ data.size) (hroom : stop ≤ start + bytes.length) :
    (splice data start stop bytes).data.toList
      = data.data.toList.take start ++ bytes ++ data.data.toList.drop stop := by
  have hsize : data.data.toList.length = data.size := rfl
  by_cases h : start + bytes.length = stop
  · simp only [splice, if_pos h]
    rw [toList_writeOver]
    simp [h]
  · simp only [splice, if_neg h]
    have hfront : (data.data.toList.take start ++ bytes).length = start + bytes.length := by
      simp [hsize]; omega
    have htail : (data.extract stop data.size).data.toList = data.data.toList.drop stop := by
      simp [List.take_of_length_le, hsize]
    rw [toList_writeOver, toList_writeOver, List.data_toByteArray, List.toList_toArray, htail,
      List.take_left' hfront, List.drop_of_length_le (i := start + bytes.length + _), List.append_nil]
    simp [hsize]
    omega

end ScriptEngine.Buffer
