import ScriptEngine.Json
/-!
Options that a machine is made with.

An options text is a JSON object whose missing fields keep their defaults and whose unknown fields
are ignored, or an array of the fields in their order.
-/

namespace ScriptEngine

/-- Options of a machine. -/
structure Options where
  objectCellsPerBlock : Nat := 20
  /-- An allocation that leaves fewer free object cells asks for a collection. -/
  objectReserve : Nat := 2
  propertyCellsPerBlock : Nat := 20
  propertyReserve : Nat := 2
  signatureCellsPerBlock : Nat := 10
  signatureReserve : Nat := 1
  /-- Bytes the string heap starts with. -/
  stringHeapSize : Nat := 256
  /-- Filled beyond this share of its size, the string heap asks for a collection. -/
  stringRatio : Number := .ofFloat 0.9
  /-- Spare bytes that a full collection leaves in the string heap. -/
  stringSlack : Nat := 500
  /-- Bytes that compiled code reserves for a forward jump. -/
  placeholderWidth : Nat := 1

namespace Options

/-- The options that no text changes. -/
def default : Options := {}

/-- The names of the fields, in order. -/
def fieldNames : List String :=
  ["object_cells_per_block", "object_reserve", "property_cells_per_block", "property_reserve",
    "ffi_sig_cells_per_block", "ffi_sig_reserve", "string_heap_size", "string_gc_ratio",
    "string_slack", "placeholder_width"]

/-- A count: an integer that fits a machine word. -/
def count? : Json → Option Nat
  | .number n => n.toNat? (UInt64.size - 1)
  | _ => none

/-- A ratio: a number that a double can hold. -/
def ratio? : Json → Option Number
  | .number n =>
    match n.toNumber.reading with
    | .finite _ _ => some n.toNumber
    | _ => none
  | _ => none

/-- The options with one field set; an unknown field changes nothing. -/
def set (o : Options) (field : String) (j : Json) : Option Options :=
  match field with
  | "object_cells_per_block" => (count? j).map fun n => { o with objectCellsPerBlock := n }
  | "object_reserve" => (count? j).map fun n => { o with objectReserve := n }
  | "property_cells_per_block" => (count? j).map fun n => { o with propertyCellsPerBlock := n }
  | "property_reserve" => (count? j).map fun n => { o with propertyReserve := n }
  | "ffi_sig_cells_per_block" => (count? j).map fun n => { o with signatureCellsPerBlock := n }
  | "ffi_sig_reserve" => (count? j).map fun n => { o with signatureReserve := n }
  | "string_heap_size" => (count? j).map fun n => { o with stringHeapSize := n }
  | "string_gc_ratio" => (ratio? j).map fun r => { o with stringRatio := r }
  | "string_slack" => (count? j).map fun n => { o with stringSlack := n }
  | "placeholder_width" => (count? j).map fun n => { o with placeholderWidth := n }
  | _ => some o

/-- Sets fields one after the other. -/
def setAll (o : Options) : List (String × Json) → Option Options
  | [] => some o
  | (field, j) :: rest =>
    match o.set field j with
    | some o => setAll o rest
    | none => none

/-- The entries of an object, whose keys have to be text. -/
def fields? : List (JsonText × Json) → Option (List (String × Json))
  | [] => some []
  | (key, j) :: rest => do
    let key ← key
    let fields ← fields? rest
    return (key, j) :: fields

/-- Reads options. A known field may not come twice; nothing is asked of the value of an unknown
one. -/
def ofJson? (j : Json) : Option Options :=
  match j with
  | .object entries => do
    let fields ← fields? entries
    guard ((fields.map Prod.fst).filter fieldNames.contains).Nodup
    setAll default fields
  | .array items =>
    if items.length ≤ fieldNames.length then setAll default (fieldNames.zip items) else none
  | _ => none

/-- Reads an options text. -/
def parse? (text : String) : Option Options :=
  (Json.parse? text).bind ofJson?

end Options

end ScriptEngine
