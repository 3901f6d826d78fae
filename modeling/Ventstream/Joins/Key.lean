import Ventstream.Core.Event

/-! # Keys of the join state

`PkValue` is the text of a JSON array of key components, after numbers and
booleans have been turned into strings, so that the two sides of a join agree on
a key whatever JSON type they render it in. Rows are addressed by table and key.
The definitions follow `key.rs`.
-/

namespace Ventstream.Joins

open Json

structure PkValue where
  bytes : String
  deriving DecidableEq, Repr

/-- Numbers and booleans as their text; everything else as it is. -/
def normalizeComponent : Value → Value
  | .bool value => .string (toString value)
  | .number number => .string number.text
  | other => other

namespace PkValue

def fromValues (values : List Value) : PkValue :=
  ⟨render (.array (values.map normalizeComponent))⟩

/-- The null sentinel. No key that `fromValues` builds is it. -/
def isNull (pk : PkValue) : Bool := pk.bytes.isEmpty

/-- The components again, read with the given JSON reader. -/
def toJson (fromStr : String → Option Value) (pk : PkValue) : Value :=
  if pk.isNull then .array [] else (fromStr pk.bytes).getD .null

def display (pk : PkValue) : String := if pk.isNull then "∅" else pk.bytes

theorem fromValues_isNull (values : List Value) : (fromValues values).isNull = false := by
  simp [isNull, fromValues, render, chars]

end PkValue

/-- The key of a row in the named columns; a missing column counts as null. -/
def keyOf (columns : List String) (row : Fields) : PkValue :=
  .fromValues (columns.map fun column => (Fields.get? column row).getD .null)

def extractPk (row : Value) (columns : List String) : Option PkValue :=
  row.asObject.map (keyOf columns)

@[simp] theorem extractPk_object (fields : Fields) (columns : List String) :
    extractPk (.object fields) columns = some (keyOf columns fields) := rfl

structure RowKey where
  table : String
  pk : PkValue
  deriving DecidableEq

/-- A primary row listed under a foreign-key value of one relation. -/
structure PrimaryLink where
  relatedId : String
  fkValue : PkValue
  primary : RowKey
  deriving DecidableEq

/-- A foreign row listed under a foreign-key value of one relation. -/
structure ForeignLink where
  relatedId : String
  fkValue : PkValue
  foreignPk : PkValue
  deriving DecidableEq

instance : LinearOrder PkValue :=
  LinearOrder.lift' PkValue.bytes fun left right same => by
    cases left
    cases right
    simpa using same

instance : LinearOrder RowKey :=
  LinearOrder.lift' (fun row => toLex (row.table, row.pk)) fun left right same => by
    cases left
    cases right
    simpa using same

instance : LinearOrder PrimaryLink :=
  LinearOrder.lift' (fun link => toLex (link.relatedId, toLex (link.fkValue, link.primary)))
    fun left right same => by
      cases left
      cases right
      simpa using same

instance : LinearOrder ForeignLink :=
  LinearOrder.lift' (fun link => toLex (link.relatedId, toLex (link.fkValue, link.foreignPk)))
    fun left right same => by
      cases left
      cases right
      simpa using same

instance : Std.TransCmp (compare : RowKey → RowKey → Ordering) := inferInstance

instance : Std.TransCmp (compare : PrimaryLink → PrimaryLink → Ordering) := inferInstance

instance : Std.TransCmp (compare : ForeignLink → ForeignLink → Ordering) := inferInstance

theorem PrimaryLink.primary_lt {left right : PrimaryLink} (less : left < right)
    (sameId : left.relatedId = right.relatedId) (sameFk : left.fkValue = right.fkValue) :
    left.primary < right.primary := by
  have ordered : toLex (left.relatedId, toLex (left.fkValue, left.primary)) <
      toLex (right.relatedId, toLex (right.fkValue, right.primary)) := less
  simpa [Prod.Lex.toLex_lt_toLex, sameId, sameFk] using ordered

end Ventstream.Joins
