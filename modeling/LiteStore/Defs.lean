-- The data that the lite store keeps: rows, columns, indexes and tables, as
-- `LiteRocksDBStore.h` declares them. A field that no modelled function reads
-- is left out.
import LiteStore.Bytes

namespace litestore

/-! ## Rows -/

/-- The bytes of an encoded row. A string of the program is shorter than
`2 ^ 63` bytes, so the eight bytes in front of it hold its size. -/
structure Row where
  bytes : Bytes
  short : bytes.length < 2 ^ 63
deriving DecidableEq

instance : Inhabited Row := ⟨⟨[], by decide⟩⟩

/-- A row of a table. The row id counts only in a table with no primary key. -/
structure LiteRow where
  rowId : UInt64
  value : Row
deriving DecidableEq, Inhabited

/-- An update: the row it replaces and the new value. -/
structure LiteRowMutation where
  before : LiteRow
  after : Row
deriving DecidableEq

/-- The row that an update leaves behind. -/
def LiteRowMutation.afterRow (u : LiteRowMutation) : LiteRow := ⟨u.before.rowId, u.after⟩

@[simp] theorem LiteRowMutation.afterRow_rowId (u : LiteRowMutation) :
    u.afterRow.rowId = u.before.rowId := rfl

/-! ## Tables -/

structure LiteColumnDef where
  name : String
  type : String
  nullable : Bool := true
deriving DecidableEq

structure LiteIndexDef where
  name : String
  objectUid : UInt64 := 0
  unique : Bool := false
  keyEncodingVersion : UInt32 := 1
  keyColumns : List Nat
  descending : List Bool
deriving DecidableEq

structure LiteRIDef where
  name : String
  referencingColumns : List Nat
  referencedCatalog : String
  referencedSchema : String
  referencedTable : String
  referencedColumns : List Nat
  referencedConstraint : String
deriving DecidableEq

/-- A table. The number of unique constraints fits in the eight bytes that a
unique key spends on its ordinal, as the size of a vector does. -/
structure LiteTableDef where
  catalog : String
  schema : String
  name : String
  objectUid : UInt64 := 0
  nextRowId : UInt64 := 1
  columns : List LiteColumnDef := []
  primaryKeyColumns : List Nat := []
  uniqueKeyColumns : List (List Nat) := []
  secondaryIndexes : List LiteIndexDef := []
  riConstraints : List LiteRIDef := []
  view : Bool := false
  ordinalsFit : uniqueKeyColumns.length < 2 ^ 64 := by decide
deriving DecidableEq

theorem no_ordinals_fit : ([] : List (List Nat)).length < 2 ^ 64 := by decide

/-- A table with no primary key numbers its rows with row ids. -/
def LiteTableDef.keyless (t : LiteTableDef) : Bool := t.primaryKeyColumns.isEmpty

end litestore
